import ComplexAlgebra.Proofs.Choices
import ComplexAlgebra.Proofs.Folding
import ComplexAlgebra.Proofs.Stability

/-! A constant factor in front of an expression that simplification leaves as it is. Whether a rule
for sums applies depends on the shapes of the operands only, and a factor other than zero does not
change these, so no variable is merged with another one or dropped on the way. -/
namespace ComplexAlgebra

variable {K : Type} [Arithmetic K]

namespace Expr

theorem Stable.folded {e : Expr K} (h : e.Stable) : e.Folded := by
  induction e with
  | constant v => trivial
  | var name c => trivial
  | op o l r ihl ihr => exact Simplification.folded_op (ihl h.1) (ihr h.2.1) h.2.2

theorem isNumber_var (x : K) (name : Char) (c : K) : (var name c).isNumber x = false := rfl

theorem isNumber_op (x : K) (o : Operator) (l r : Expr K) : (op o l r).isNumber x = false := rfl

theorem weight_le_of_isOperand {x e : Expr K} (h : x.IsOperand e) : x.weight ≤ e.weight := by
  cases h with
  | left => exact Nat.le_of_lt (weight_left_lt _ _ _)
  | right => exact Nat.le_of_lt (weight_right_lt _ _ _)

end Expr

namespace Simplification

open ComplexAlgebra.Expr

section Sums

variable {negated : Bool} {l r : Expr K}

theorem size_collected (name : Char) (c : K) : (collected name c).size = 1 := by
  unfold collected
  split <;> rfl

theorem size_sum_le (negated : Bool) (l r : Expr K) :
    (sum negated l r).size ≤ l.size + r.size + 1 := by
  fun_induction sum negated l r with
  | case1 negated l r e h =>
    rcases sumAtOnce?_cases h with ⟨v, rfl⟩ | ⟨name, c, rfl⟩ | rfl | rfl | rfl
    · simp [size]
    · simp [size_collected]
    · omega
    · omega
    · simp [size]
  | case2 negated l r _ t h _ ih =>
    have hsize := size_of_regrouped? h
    simp only [size] at ih
    omega
  | case3 negated l r _ t h _ ih =>
    have hsize := size_of_regrouped? h
    simp only [size] at ih
    omega
  | case4 negated l r => simp [size]

theorem weight_sum_le_max (negated : Bool) (l r : Expr K) (h : terms? (sum negated l r) = none) :
    (sum negated l r).weight ≤ max (max l.weight r.weight) 4 := by
  have hterms (negated : Bool) (l r : Expr K) : terms? (.op (additive negated) l r) ≠ none := by
    cases negated <;> exact Option.some_ne_none _
  have hrest {negated : Bool} {l r : Expr K} {t : Split K} (ht : regrouped? negated l r = some t) :
      t.rest.weight ≤ max l.weight r.weight :=
    (isOperand_regrouped? ht).elim
      (fun ho => Nat.le_trans (weight_le_of_isOperand ho) (Nat.le_max_left _ _))
      (fun ho => Nat.le_trans (weight_le_of_isOperand ho) (Nat.le_max_right _ _))
  fun_induction sum negated l r with
  | case1 negated l r e he =>
    rcases sumAtOnce?_cases he with ⟨v, rfl⟩ | ⟨name, c, rfl⟩ | rfl | rfl | rfl
    · simp only [weight_constant]
      omega
    · exact Nat.le_trans (weight_collected_le name c) (Nat.le_max_right _ _)
    · omega
    · omega
    · exact absurd h (hterms _ _ _)
  | case2 negated l r _ t ht _ ih =>
    have hle := hrest ht
    have := ih h
    simp only [weight_constant] at this
    omega
  | case3 negated l r _ t ht _ ih =>
    have hle := hrest ht
    have := ih h
    simp only [weight_constant] at this
    omega
  | case4 negated l r => exact absurd h (hterms _ _ _)

/-- A rule for sums or differences applies to these operands. -/
inductive Joins (negated : Bool) : Expr K → Expr K → Prop
  | constants (v w : Value K) : Joins negated (.constant v) (.constant w)
  | multiples (name : Char) (c d : K) : Joins negated (.var name c) (.var name d)
  | zeroRight (l : Expr K) {r : Expr K} (h : r.isNumber 0 = true) : Joins negated l r
  | zeroLeft {l : Expr K} (h : l.isNumber 0 = true) (hn : negated = false) (r : Expr K) :
    Joins negated l r
  | zeroVariable {l : Expr K} (h : l.isNumber 0 = true) (name : Char) (d : K) :
    Joins negated l (.var name d)
  | constantRight {l : Expr K} (h : (split? l).isSome = true) (k : Value K) :
    Joins negated l (.constant k)
  | constantLeft (k : Value K) {r : Expr K} (h : (split? r).isSome = true) :
    Joins negated (.constant k) r

theorem regrouped?_of_not_joins (h : ¬ Joins negated l r) : regrouped? negated l r = none := by
  unfold regrouped?
  split
  · rw [Option.map_eq_none_iff]
    exact Option.not_isSome_iff_eq_none.1 fun hs => h (.constantRight hs _)
  · rw [Option.map_eq_none_iff]
    exact Option.not_isSome_iff_eq_none.1 fun hs => h (.constantLeft _ hs)
  · rfl

theorem sum_of_not_joins (h : ¬ Joins negated l r) :
    sum negated l r = .op (additive negated) l r := by
  cases hs : sumAtOnce? negated l r with
  | none => exact sum_of_none hs (regrouped?_of_not_joins h)
  | some e =>
    rw [sum_of_sumAtOnce? hs]
    unfold sumAtOnce? at hs
    split at hs
    · exact absurd (.constants _ _) h
    · split at hs
      · next hname =>
        subst hname
        exact absurd (.multiples _ _ _) h
      · exact (Option.some.inj hs).symm
    · split at hs
      · next hr => exact absurd (.zeroRight _ hr) h
      · split at hs
        · next hl =>
          obtain ⟨hl, hn⟩ := Bool.and_eq_true_iff.1 hl
          exact absurd (.zeroLeft hl (by simpa using hn) _) h
        · split at hs
          · split at hs
            · next hl => exact absurd (.zeroVariable hl _ _) h
            · exact (Option.some.inj hs).symm
          · exact (Option.some.inj hs).symm
          · exact (Option.some.inj hs).symm
          · cases hs

theorem size_sum_of_atOnce {e : Expr K} (h : sumAtOnce? negated l r = some e)
    (hsize : e.size ≤ l.size + r.size) : (sum negated l r).size < l.size + r.size + 1 := by
  rw [sum_of_sumAtOnce? h]
  exact Nat.lt_succ_of_le hsize

theorem size_sum_of_regrouped {t : Split K} (h : sumAtOnce? negated l r = none)
    (ht : regrouped? negated l r = some t) :
    (sum negated l r).size < l.size + r.size + 1 := by
  have hsize := size_of_regrouped? ht
  have hleft := size_sum_le true (.constant t.constant) t.rest
  have hright := size_sum_le false t.rest (.constant t.constant)
  simp only [size] at hleft hright
  rw [sum]
  simp only [h]
  split
  · next u hu =>
    cases ht.symm.trans hu
    split <;> omega
  · next hu => cases ht.symm.trans hu

theorem size_sum_of_joins (h : Joins negated l r) :
    (sum negated l r).size < l.size + r.size + 1 := by
  cases h with
  | constants v w => exact size_sum_of_atOnce rfl (by simp [size])
  | multiples name c d =>
    exact size_sum_of_atOnce (if_pos rfl) (by simp [size, size_collected])
  | zeroRight l hr =>
    obtain ⟨y, rfl, hy⟩ := Expr.isNumber_iff.1 hr
    cases l with
    | constant v => exact size_sum_of_atOnce rfl (by simp [size])
    | var name c => exact size_sum_of_atOnce (if_pos hr) (by simp [size])
    | op o a b => exact size_sum_of_atOnce (if_pos hr) (by simp [size])
  | zeroLeft hl hn r =>
    obtain ⟨y, rfl, hy⟩ := Expr.isNumber_iff.1 hl
    subst hn
    cases r with
    | constant v => exact size_sum_of_atOnce rfl (by simp [size])
    | var name c => exact size_sum_of_atOnce (by simp [sumAtOnce?, isNumber, hy]; rfl) (by simp)
    | op o a b => exact size_sum_of_atOnce (by simp [sumAtOnce?, isNumber, hy]; rfl) (by simp)
  | zeroVariable hl name d =>
    obtain ⟨y, rfl, hy⟩ := Expr.isNumber_iff.1 hl
    cases negated with
    | false =>
      exact size_sum_of_atOnce (by simp [sumAtOnce?, isNumber, hy]; rfl) (by simp)
    | true =>
      exact size_sum_of_atOnce (by simp [sumAtOnce?, isNumber, hy]; rfl)
        (by simp [size, size_collected])
  | constantRight hl k =>
    cases l with
    | constant v => cases hl
    | var name c => cases hl
    | op o a b =>
      by_cases hk : (Expr.constant k).isNumber 0 = true
      · exact size_sum_of_atOnce (if_pos hk) (by simp)
      · obtain ⟨t, ht⟩ := Option.isSome_iff_exists.1 hl
        have hnone : sumAtOnce? negated (.op o a b) (.constant k) = none := (if_neg hk).trans rfl
        exact size_sum_of_regrouped hnone (by simp only [regrouped?, ht]; rfl)
  | constantLeft k hr =>
    cases r with
    | constant v => cases hr
    | var name c => cases hr
    | op o a b =>
      obtain ⟨t, ht⟩ := Option.isSome_iff_exists.1 hr
      by_cases hk : ((Expr.constant k).isNumber 0 && !negated) = true
      · have hsome : sumAtOnce? negated (.constant k) (.op o a b) = some (.op o a b) := by
          simp only [sumAtOnce?, isNumber_op, hk, Bool.false_eq_true, if_true, if_false]
        exact size_sum_of_atOnce hsome (by simp)
      · have hnone : sumAtOnce? negated (.constant k) (.op o a b) = none := by
          simp only [sumAtOnce?, isNumber_op, hk, Bool.false_eq_true, if_false]
        exact size_sum_of_regrouped hnone (by simp only [regrouped?, ht]; rfl)

/-- The sums that stay as they are. -/
theorem sum_eq_op_iff :
    sum negated l r = .op (additive negated) l r ↔ ¬ Joins negated l r := by
  constructor
  · intro h hjoins
    have hlt := size_sum_of_joins hjoins
    rw [h] at hlt
    exact Nat.lt_irrefl _ hlt
  · exact sum_of_not_joins

end Sums

/-- `m` has the variables of `w`, and where a rule for sums finds a variable, a zero or a constant
to split off in `m`, it finds one in `w`. -/
structure Shaped (w m : Expr K) : Prop where
  names : m.names = w.names
  var : ∀ name c, m = .var name c → ∃ d, w = .var name d
  zero : m.isNumber 0 = true → w.isNumber 0 = true
  split : (split? m).isSome = true → (split? w).isSome = true

theorem Shaped.refl (w : Expr K) : Shaped w w :=
  ⟨rfl, fun _ c h => ⟨c, h⟩, id, id⟩

theorem Shaped.constant {w : Expr K} {v : Value K} (h : Shaped w (.constant v)) (hw : w.Folded) :
    ∃ u, w = .constant u :=
  hw.eq_constant (closed_iff_names.2 h.names.symm)

theorem Joins.of_shaped {negated : Bool} {l r l' r' : Expr K} (hl : Shaped l l') (hr : Shaped r r')
    (hlf : l.Folded) (hrf : r.Folded) (h : Joins negated l' r') : Joins negated l r := by
  cases h with
  | constants v w =>
    obtain ⟨v, rfl⟩ := hl.constant hlf
    obtain ⟨w, rfl⟩ := hr.constant hrf
    exact .constants v w
  | multiples name c d =>
    obtain ⟨c, rfl⟩ := hl.var name _ rfl
    obtain ⟨d, rfl⟩ := hr.var name _ rfl
    exact .multiples name c d
  | zeroRight _ hz => exact .zeroRight l (hr.zero hz)
  | zeroLeft hz hn _ => exact .zeroLeft (hl.zero hz) hn r
  | zeroVariable hz name d =>
    obtain ⟨d, rfl⟩ := hr.var name _ rfl
    exact .zeroVariable (hl.zero hz) name d
  | constantRight hs k =>
    obtain ⟨k, rfl⟩ := hr.constant hrf
    exact .constantRight (hl.split hs) k
  | constantLeft k hs =>
    obtain ⟨k, rfl⟩ := hl.constant hlf
    exact .constantLeft k (hr.split hs)

theorem isSome_split?_additive {negated : Bool} {l r : Expr K} :
    (split? (.op (additive negated) l r)).isSome = true ↔
      (∃ k, l = .constant k) ∨ ∃ k, r = .constant k := by
  cases negated <;> cases l <;> cases r <;> simp [split?, additive]

/-- A sum that stays as it is does so with other operands of the same shapes. -/
theorem shaped_sum {negated : Bool} {l r l' r' : Expr K} (hl : Shaped l l') (hr : Shaped r r')
    (hlf : l.Folded) (hrf : r.Folded) (h : sum negated l r = .op (additive negated) l r) :
    Shaped (.op (additive negated) l r) (sum negated l' r') := by
  rw [sum_of_not_joins fun hjoins => sum_eq_op_iff.1 h (hjoins.of_shaped hl hr hlf hrf)]
  refine ⟨congrArg₂ _ hl.names hr.names, nofun, nofun, fun hs => ?_⟩
  rw [isSome_split?_additive] at hs ⊢
  rcases hs with ⟨k, rfl⟩ | ⟨k, rfl⟩
  · exact .inl (hl.constant hlf)
  · exact .inr (hr.constant hrf)

section Distribution

variable {l r e : Expr K}

theorem productAtOnce?_operator (h : productAtOnce? l r = some e)
    (ho : (l.isOperator || r.isOperator) = true) : e = l ∨ e = r ∨ e = .number 0 := by
  unfold productAtOnce? at h
  split at h
  · cases ho
  · cases ho
  · split at h
    · exact .inr (.inl (Option.some.inj h).symm)
    · split at h
      · exact .inl (Option.some.inj h).symm
      · split at h
        · exact .inr (.inr (Option.some.inj h).symm)
        · split at h
          · cases ho
          · cases ho
          · cases h

theorem quotientAtOnce?_operator (h : quotientAtOnce? l r = some e) (ho : l.isOperator = true) :
    e = l := by
  unfold quotientAtOnce? at h
  split at h
  · cases ho
  · cases ho
  · split at h
    · exact (Option.some.inj h).symm
    · split at h
      · cases ho
      · cases h

theorem multiply_of_distributable_left {negated : Bool} {a b : Expr K}
    (h : productAtOnce? l r = none) (hd : distributable? l r = some (negated, a, b)) :
    multiply l r = sum negated (multiply a r) (multiply b r) := by
  rw [multiply]
  simp only [h]
  split
  · next hh =>
    cases hd.symm.trans hh
    rfl
  · next hh => cases hd.symm.trans hh

theorem multiply_of_distributable_right {negated : Bool} {a b : Expr K}
    (h : productAtOnce? l r = none) (hn : distributable? l r = none)
    (hd : distributable? r l = some (negated, a, b)) :
    multiply l r = sum negated (multiply l a) (multiply l b) := by
  rw [multiply]
  simp only [h]
  split
  · next hh => cases hn.symm.trans hh
  · split
    · next hh =>
      cases hd.symm.trans hh
      rfl
    · next hh => cases hd.symm.trans hh

theorem divide_of_distributable {negated : Bool} {a b : Expr K} (h : quotientAtOnce? l r = none)
    (hd : distributable? l r = some (negated, a, b)) :
    divide l r = sum negated (divide a r) (divide b r) := by
  rw [divide]
  simp only [h]
  split
  · next hh =>
    cases hd.symm.trans hh
    rfl
  · next hh => cases hd.symm.trans hh

theorem weight_lt_of_sum {negated : Bool} {x y : Nat} (h : sum negated l r = e)
    (hterms : terms? e = none) (hl : l.weight ≤ x) (hr : r.weight ≤ y) (hx : 4 ≤ x)
    (hy : 4 ≤ y) : e.weight < x + y := by
  subst h
  have hle := weight_sum_le_max negated l r hterms
  omega

theorem four_le_weight_mul (a b : Expr K) : 4 ≤ a.weight * b.weight :=
  Nat.mul_le_mul (two_le_weight a) (two_le_weight b)

theorem productAtOnce?_of_multiply (h : multiply l r = .op .mul l r)
    (ho : (l.isOperator || r.isOperator) = true) : productAtOnce? l r = none := by
  cases hat : productAtOnce? l r with
  | none => rfl
  | some e =>
    rw [multiply, hat] at h
    have hsize := congrArg size h
    simp only [size] at hsize
    rcases productAtOnce?_operator hat ho with rfl | rfl | rfl
    · omega
    · omega
    · cases h

theorem quotientAtOnce?_of_divide (h : divide l r = .op .div l r) (ho : l.isOperator = true) :
    quotientAtOnce? l r = none := by
  cases hat : quotientAtOnce? l r with
  | none => rfl
  | some e =>
    rw [divide, hat] at h
    have hsize := congrArg size h
    simp only [size] at hsize
    obtain rfl := quotientAtOnce?_operator hat ho
    omega

theorem distributable?_left_of_multiply (h : multiply l r = .op .mul l r) :
    distributable? l r = none := by
  cases hd : distributable? l r with
  | none => rfl
  | some t =>
    obtain ⟨negated, a, b⟩ := t
    obtain ⟨rfl, hr⟩ := eq_of_distributable? hd
    have ha := weight_multiply_le a r
    have hb := weight_multiply_le b r
    have hsum := multiply_of_distributable_left (productAtOnce?_of_multiply h rfl) hd
    have hlt := weight_lt_of_sum (hsum.symm.trans h) rfl ha hb (four_le_weight_mul a r)
      (four_le_weight_mul b r)
    simp only [weight, weight_additive, Nat.add_mul] at hlt
    omega

theorem distributable?_right_of_multiply (h : multiply l r = .op .mul l r) :
    distributable? r l = none := by
  cases hd : distributable? r l with
  | none => rfl
  | some t =>
    obtain ⟨negated, a, b⟩ := t
    obtain ⟨rfl, hl⟩ := eq_of_distributable? hd
    have ha := weight_multiply_le l a
    have hb := weight_multiply_le l b
    have hsum := multiply_of_distributable_right
      (productAtOnce?_of_multiply h (Bool.or_true _)) (distributable?_left_of_multiply h) hd
    have hlt := weight_lt_of_sum (hsum.symm.trans h) rfl ha hb (four_le_weight_mul l a)
      (four_le_weight_mul l b)
    simp only [weight, weight_additive, Nat.mul_add] at hlt
    omega

theorem distributable?_of_divide (h : divide l r = .op .div l r) : distributable? l r = none := by
  cases hd : distributable? l r with
  | none => rfl
  | some t =>
    obtain ⟨negated, a, b⟩ := t
    obtain ⟨rfl, hr⟩ := eq_of_distributable? hd
    have ha := weight_divide_le a r
    have hb := weight_divide_le b r
    have hfour (a : Expr K) : 4 ≤ 2 * (a.weight * r.weight) :=
      Nat.le_trans (four_le_weight_mul a r) (Nat.le_mul_of_pos_left _ (by decide))
    have hsum := divide_of_distributable (quotientAtOnce?_of_divide h rfl) hd
    have hlt := weight_lt_of_sum (hsum.symm.trans h) rfl ha hb (hfour a) (hfour b)
    simp only [weight, weight_additive, Nat.add_mul] at hlt
    omega

end Distribution

theorem exists_multiply_number_var (x : K) (name : Char) (c : K) :
    (∃ e, productAtOnce? (.number x) (.var name c) = some e ∧ e.isOperator = false) ∧
      ∃ e, productAtOnce? (.var name c) (.number x) = some e ∧ e.isOperator = false := by
  constructor
  · simp only [productAtOnce?, isNumber_var, Bool.false_eq_true, if_false, Bool.or_false]
    split
    · exact ⟨_, rfl, rfl⟩
    · split <;> exact ⟨_, rfl, rfl⟩
  · simp only [productAtOnce?, isNumber_var, Bool.false_eq_true, if_false, Bool.false_or]
    split
    · exact ⟨_, rfl, rfl⟩
    · split <;> exact ⟨_, rfl, rfl⟩

/-- What stands beside a constant in a product or over it in a quotient that stays as it is: no sum,
and no variable if the constant is a number. -/
structure Beside (k : Value K) (rest : Expr K) : Prop where
  terms : terms? rest = none
  var : ∀ name c, rest = .var name c → ∀ x, k ≠ .scalar x

theorem beside_of_times {e rest : Expr K} {k : Value K} (he : e.Stable)
    (h : factored? e = some (.times k rest)) :
    Beside k rest ∧ (Expr.constant k).isNumber 0 = false := by
  unfold factored? at h
  split at h
  · cases h
    have hstay : multiply _ _ = _ := he.2.2
    refine ⟨⟨distributable?_right_of_multiply hstay, ?_⟩, (isNumber_zero_of_stable he).1⟩
    rintro name c rfl x rfl
    obtain ⟨⟨e, hat, ho⟩, -⟩ := exists_multiply_number_var x name c
    rw [multiply, hat] at hstay
    subst hstay
    cases ho
  · cases h
    have hstay : multiply _ _ = _ := he.2.2
    refine ⟨⟨distributable?_left_of_multiply hstay, ?_⟩, (isNumber_zero_of_stable he).2⟩
    rintro name c rfl x rfl
    obtain ⟨-, e, hat, ho⟩ := exists_multiply_number_var x name c
    rw [multiply, hat] at hstay
    subst hstay
    cases ho
  · cases h
  · cases h
  · cases h

theorem beside_of_dividend {e rest : Expr K} {k : Value K} (he : e.Stable)
    (h : factored? e = some (.dividend rest k)) : Beside k rest := by
  unfold factored? at h
  split at h
  · cases h
  · cases h
  · cases h
    have hstay : divide _ _ = _ := he.2.2
    refine ⟨distributable?_of_divide hstay, ?_⟩
    rintro name c rfl x rfl
    rw [divide] at hstay
    simp only [quotientAtOnce?] at hstay
    split at hstay
    · next e he => split at he <;> cases he <;> cases hstay
    · next he => split at he <;> cases he
  · cases h
  · cases h

theorem isNumber_combine_mul (hK : Arithmetic.Regular K) {v w : Value K}
    (hv : (Expr.constant v).isNumber 0 = false) (hw : (Expr.constant w).isNumber 0 = false) :
    (Expr.constant (Operator.mul.combine v w)).isNumber 0 = false := by
  cases v with
  | list xs => cases w <;> rfl
  | scalar x =>
    cases w with
    | list ys => rfl
    | scalar y => exact hK.mul_ne_zero x y hv hw

theorem isNumber_combine_div (hK : Arithmetic.Regular K) {v : Value K}
    (hv : (Expr.constant v).isNumber 0 = false) (w : Value K) :
    (Expr.constant (Operator.div.combine v w)).isNumber 0 = false := by
  cases v with
  | list xs => cases w <;> rfl
  | scalar x =>
    cases w with
    | list ys => rfl
    | scalar y => exact hK.div_ne_zero x y hv

theorem productAtOnce?_constant_op {v : Value K} (hv : (Expr.constant v).isNumber 0 = false)
    (o : Operator) (l r : Expr K) : productAtOnce? (.constant v) (.op o l r) =
      if (Expr.constant v).isNumber 1 then some (.op o l r) else none := by
  simp only [productAtOnce?, isNumber_op, hv, Bool.false_eq_true, Bool.or_false, if_false]

theorem multiply_constant_var {v : Value K} (hv : (Expr.constant v).isNumber 0 = false)
    (name : Char) (c : K) :
    ((∃ x, v = .scalar x) ∧ ∃ d, multiply (.constant v) (.var name c) = .var name d) ∨
      multiply (.constant v) (.var name c) = .op .mul (.constant v) (.var name c) := by
  cases v with
  | list xs => exact .inr (multiply_of_none rfl rfl rfl rfl)
  | scalar x =>
    refine .inl ⟨⟨x, rfl⟩, ?_⟩
    rw [multiply]
    simp only [productAtOnce?, isNumber_var, hv, Bool.false_eq_true, Bool.or_false, if_false]
    split
    · next e he =>
      split at he <;> cases he <;> exact ⟨_, rfl⟩
    · next he => split at he <;> cases he

theorem shaped_multiply_constant (hK : Arithmetic.Regular K) {v : Value K}
    (hv : (Expr.constant v).isNumber 0 = false) (w : Value K) :
    Shaped (.constant w) (multiply (.constant v) (.constant w)) := by
  have hfold : multiply (.constant v) (.constant w) = .constant (Operator.mul.combine v w) :=
    operation_constant (o := .mul) (by decide) v w
  rw [hfold]
  refine ⟨rfl, nofun, fun hz => ?_, id⟩
  by_contra hw
  rw [isNumber_combine_mul hK hv (Bool.eq_false_iff.2 hw)] at hz
  cases hz

theorem shaped_product {w l r : Expr K} {o : Operator} (ho : o = .mul ∨ o = .div)
    (h : (Expr.op o l r).names = w.names) : Shaped w (.op o l r) := by
  refine ⟨h, ?_, ?_, ?_⟩
  · rintro _ _ ⟨⟩
  · rintro ⟨⟩
  · rcases ho with rfl | rfl
    · rintro ⟨⟩
    · rintro ⟨⟩

theorem shaped_multiply_var {v : Value K} (hv : (Expr.constant v).isNumber 0 = false)
    (name : Char) (c : K) :
    Shaped (.var name c) (multiply (.constant v) (.var name c)) ∧
      ∀ other d, multiply (.constant v) (.var name c) = .var other d → ∃ x, v = .scalar x := by
  rcases multiply_constant_var hv name c with ⟨hx, d, hd⟩ | hmul
  · rw [hd]
    refine ⟨⟨rfl, ?_, nofun, id⟩, fun _ _ _ => hx⟩
    rintro _ _ ⟨⟩
    exact ⟨c, rfl⟩
  · rw [hmul]
    refine ⟨shaped_product (.inl rfl) rfl, ?_⟩
    rintro _ _ ⟨⟩

omit [Arithmetic K] in
theorem names_of_factored? {e : Expr K} {f : Factored K} (h : factored? e = some f) :
    f.rest.names = e.names := by
  unfold factored? at h
  split at h <;> cases h <;> simp [Factored.rest, names]

theorem operation_additive (negated : Bool) (l r : Expr K) :
    operation (additive negated) l r = sum negated l r := by
  cases negated <;> rfl

theorem divide_constant (v : Value K) {e : Expr K} (h : e.names ≠ []) :
    divide (.constant v) e = .op .div (.constant v) e := by
  cases e with
  | constant w => exact absurd rfl h
  | var name c => exact divide_of_none rfl rfl rfl
  | op o l r => exact divide_of_none rfl rfl rfl

theorem shaped_of_beside {k v : Value K} {w rest m : Expr K} (hrest : Shaped rest m)
    (hbeside : Beside k rest) (hnames : rest.names = w.names) (hw : w.names ≠ [])
    (hvar : ∀ name c, m = .var name c → ∃ x, k = .scalar x) :
    Shaped w m ∧ ∀ name c, m = .var name c → ∃ x, v = .scalar x := by
  have hno (name : Char) (c : K) : m ≠ .var name c := by
    intro hm
    obtain ⟨x, hx⟩ := hvar name c hm
    obtain ⟨d, hd⟩ := hrest.var name c hm
    exact hbeside.var name d hd x hx
  refine ⟨⟨hrest.names.trans hnames, fun name c hm => absurd hm (hno name c), fun hz => ?_,
    fun hs => ?_⟩, fun name c hm => absurd hm (hno name c)⟩
  · obtain ⟨y, rfl, -⟩ := Expr.isNumber_iff.1 hz
    exact absurd (hrest.names.trans hnames).symm hw
  · have hsplit := hrest.split hs
    have hterms := hbeside.terms
    unfold split? at hsplit
    split at hsplit
    · cases hterms
    · cases hterms
    · cases hterms
    · cases hterms
    · cases hsplit

/-- A product with a constant other than zero has the shape of the other factor, and it is a
variable only if the constant is a number. -/
theorem shaped_multiply (hK : Arithmetic.Regular K) {v : Value K}
    (hv : (Expr.constant v).isNumber 0 = false) {w : Expr K} (hw : w.Stable) :
    Shaped w (multiply (.constant v) w) ∧
      ∀ name c, multiply (.constant v) w = .var name c → ∃ x, v = .scalar x := by
  induction hn : w.size using Nat.strongRecOn generalizing v w with
  | ind n ih =>
  subst hn
  cases w with
  | constant y =>
    refine ⟨shaped_multiply_constant hK hv y, fun name c h => ?_⟩
    cases (operation_constant (o := .mul) (by decide) v y).symm.trans h
  | var name c => exact shaped_multiply_var hv name c
  | op o l r =>
    have hvar : (Expr.op o l r).names ≠ [] := by
      intro h
      obtain ⟨u, hu⟩ := hw.folded.eq_constant (closed_iff_names.2 h)
      cases hu
    rw [multiply, productAtOnce?_constant_op hv]
    have hop {o : Operator} {a b : Expr K} (name : Char) (c : K)
        (heq : Expr.op o a b = .var name c) : ∃ x, v = .scalar x := by
      cases heq
    by_cases hone : (Expr.constant v).isNumber 1 = true
    · simp only [hone, if_true]
      exact ⟨.refl _, hop⟩
    · simp only [hone, Bool.false_eq_true, if_false]
      split
      · next hd => cases (eq_of_distributable? hd).1
      · split
        · next negated a b hd =>
          have hsize := size_of_distributable? hd
          obtain ⟨heq, -⟩ := eq_of_distributable? hd
          rw [heq] at hw ⊢
          have ha := (ih a.size (by omega) hv hw.1 rfl).1
          have hb := (ih b.size (by omega) hv hw.2.1 rfl).1
          have hshape := shaped_sum ha hb hw.1.folded hw.2.1.folded
            (operation_additive negated a b ▸ hw.2.2)
          refine ⟨hshape, fun name c h => ?_⟩
          obtain ⟨d, hd⟩ := hshape.var name c h
          cases hd
        · split
          · next c k rest hp =>
            obtain ⟨f, hf, heq⟩ := Option.map_eq_some_iff.1 hp
            cases heq
            have hsize := size_of_factored? hf
            obtain ⟨hbeside, hk⟩ := beside_of_times hw hf
            obtain ⟨hshape, hscalar⟩ := ih rest.size (by simp only [Factored.rest] at hsize; omega)
              (isNumber_combine_mul hK hv hk) (hw.operand (isOperand_factored? hf)) rfl
            exact shaped_of_beside hshape hbeside (names_of_factored? hf) hvar fun name c hm =>
              (Value.combine_eq_scalar_iff.1 (hscalar name c hm)).2
          · next c rest k hp =>
            obtain ⟨f, hf, heq⟩ := Option.map_eq_some_iff.1 hp
            cases heq
            have hsize := size_of_factored? hf
            obtain ⟨hshape, hscalar⟩ := ih rest.size (by simp only [Factored.rest] at hsize; omega)
              (isNumber_combine_div hK hv k) (hw.operand (isOperand_factored? hf)) rfl
            exact shaped_of_beside hshape (beside_of_dividend hw hf) (names_of_factored? hf) hvar
              fun name c hm => (Value.combine_eq_scalar_iff.1 (hscalar name c hm)).2
          · next c k rest hp =>
            obtain ⟨f, hf, heq⟩ := Option.map_eq_some_iff.1 hp
            cases heq
            have hnames := names_of_factored? hf
            rw [divide_constant _ (hnames ▸ hvar)]
            exact ⟨shaped_product (.inr rfl) hnames, hop⟩
          · exact ⟨shaped_product (.inl rfl) rfl, hop⟩

theorem names_multiply_constant (hK : Arithmetic.Regular K) {v : Value K}
    (hv : (Expr.constant v).isNumber 0 = false) {w : Expr K} (hw : w.Stable) :
    (multiply (.constant v) w).names = w.names :=
  (shaped_multiply hK hv hw).1.names

theorem multiply_of_pairing {l r : Expr K} {c : Value K} {f : Factored K}
    (h : productAtOnce? l r = none) (hl : distributable? l r = none)
    (hr : distributable? r l = none) (hp : pairing? l r = some (c, f)) :
    multiply l r =
      match f with
      | .times k rest => multiply (.constant (Operator.mul.combine c k)) rest
      | .dividend rest k => multiply (.constant (Operator.div.combine c k)) rest
      | .divisor k rest => divide (.constant (Operator.mul.combine c k)) rest := by
  rw [multiply]
  simp only [h]
  split
  · next hh => cases hl.symm.trans hh
  · split
    · next hh => cases hr.symm.trans hh
    · cases f <;> split <;> next hh => cases hp.symm.trans hh <;> rfl

theorem multiply_list_sum (hK : Arithmetic.Regular K) (xs : List K) (negated : Bool)
    {a b : Expr K} (h : (Expr.op (additive negated) a b).Stable) :
    multiply (.constant (.list xs)) (.op (additive negated) a b) =
      .op (additive negated) (multiply (.constant (.list xs)) a)
        (multiply (.constant (.list xs)) b) := by
  have hterms : distributable? (.op (additive negated) a b) (.constant (.list xs)) =
      some (negated, a, b) := by
    cases negated <;> rfl
  rw [multiply_of_distributable_right rfl rfl hterms]
  refine sum_of_not_joins fun hjoins => ?_
  refine sum_eq_op_iff.1 (operation_additive negated a b ▸ h.2.2) (hjoins.of_shaped ?_ ?_
    h.1.folded h.2.1.folded)
  · exact (shaped_multiply hK rfl h.1).1
  · exact (shaped_multiply hK rfl h.2.1).1

/-- A list that is multiplied into a stable expression becomes a factor of all its terms, joins the
constant of a product or quotient, and is put in front of everything else. -/
theorem multiply_list_induction (hK : Arithmetic.Regular K)
    {P : List K → Expr K → Expr K → Prop}
    (constant : ∀ xs w, P xs (.constant w) (.constant (Operator.mul.combine (.list xs) w)))
    (sum : ∀ xs negated a b m n, P xs a m → P xs b n →
      P xs (.op (additive negated) a b) (.op (additive negated) m n))
    (times : ∀ xs k rest e m, e.Stable → factored? e = some (.times k rest) →
      terms? rest = none → P (Operator.mul.combine (.list xs) k).elements rest m → P xs e m)
    (dividend : ∀ xs k rest e m, factored? e = some (.dividend rest k) → terms? rest = none →
      P (Operator.div.combine (.list xs) k).elements rest m → P xs e m)
    (divisor : ∀ xs k rest e, factored? e = some (.divisor k rest) →
      P xs e (.op .div (.constant (Operator.mul.combine (.list xs) k)) rest))
    (other : ∀ xs e, terms? e = none → P xs e (.op .mul (.constant (.list xs)) e))
    (xs : List K) {e : Expr K} (he : e.Stable) : P xs e (multiply (.constant (.list xs)) e) := by
  have hlist (o : Operator) (xs : List K) (k : Value K) :
      o.combine (.list xs) k = .list (o.combine (.list xs) k).elements := by
    cases k <;> rfl
  induction hn : e.size using Nat.strongRecOn generalizing xs e with
  | ind n ih =>
  subst hn
  cases e with
  | constant w =>
    rw [show multiply (.constant (.list xs)) (.constant w) = _ from
      operation_constant (o := .mul) (by decide) _ w]
    exact constant xs w
  | var name c =>
    rw [multiply_of_none rfl rfl rfl rfl]
    exact other xs _ rfl
  | op o l r =>
    have hvar : (Expr.op o l r).names ≠ [] := by
      intro h
      obtain ⟨u, hu⟩ := he.folded.eq_constant (closed_iff_names.2 h)
      cases hu
    cases hterms : distributable? (.op o l r) (.constant (.list xs)) with
    | some t =>
      obtain ⟨negated, a, b⟩ := t
      have hsize := size_of_distributable? hterms
      rw [(eq_of_distributable? hterms).1] at he ⊢
      rw [multiply_list_sum hK xs _ he]
      exact sum xs negated a b _ _ (ih a.size (by omega) xs he.1 rfl)
        (ih b.size (by omega) xs he.2.1 rfl)
    | none =>
      cases hf : factored? (.op o l r) with
      | none =>
        have hpairing : pairing? (.constant (.list xs)) (.op o l r) = none := by
          rw [pairing?, hf]
          rfl
        rw [multiply_of_none rfl rfl hterms hpairing]
        exact other xs _ hterms
      | some f =>
        have hpairing : pairing? (.constant (.list xs)) (.op o l r) = some (.list xs, f) := by
          rw [pairing?, hf]
          rfl
        have hsize := size_of_factored? hf
        have hstable := he.operand (isOperand_factored? hf)
        rw [multiply_of_pairing rfl rfl hterms hpairing]
        cases f with
        | times k rest =>
          refine times xs k rest _ _ he hf (beside_of_times he hf).1.terms ?_
          rw [hlist]
          exact ih rest.size (Nat.lt_of_lt_of_eq (by simp [Factored.rest]) hsize) _ hstable rfl
        | dividend rest k =>
          refine dividend xs k rest _ _ hf (beside_of_dividend he hf).terms ?_
          rw [hlist]
          exact ih rest.size (Nat.lt_of_lt_of_eq (by simp [Factored.rest]) hsize) _ hstable rfl
        | divisor k rest =>
          have hnames := names_of_factored? hf
          simp only
          rw [divide_constant _ (hnames ▸ hvar)]
          exact divisor xs k rest _ hf

end Simplification
end ComplexAlgebra
