import ComplexAlgebra.Proofs.Comparison

/-! The rewrite rules on operands with lists. A rule may take a constant to the other side of an
operand, copy it to both terms of a sum, or leave an operand out; otherwise it runs through the
numbers of its operands in the same order before and after. -/
namespace ComplexAlgebra

open ExactNumber Simplification Number

theorem Value.withSign_eq_map {K : Type} [Arithmetic K] (negated : Bool) (v : Value K) :
    v.withSign negated = v.map fun x => if negated then -x else x := by
  cases negated with
  | false => cases v <;> simp [withSign, map]
  | true => rfl

namespace Expr

variable {K : Type}

/-- All constants have the property. -/
def Constants (P : Value K → Prop) : Expr K → Prop
  | constant v => P v
  | var _ _ => True
  | op _ l r => l.Constants P ∧ r.Constants P

abbrev ListFree (e : Expr K) : Prop := e.Constants Value.IsScalar

/-- A list stands in at most one place, and there it is a term of a sum or difference. -/
def ListSummand : Expr K → Prop
  | constant _ => True
  | var _ _ => True
  | op o l r => l.ListFree ∧ r.ListFree ∨
    (o = .add ∨ o = .sub) ∧ (l.ListSummand ∧ r.ListFree ∨ l.ListFree ∧ r.ListSummand)

theorem ListFree.listSummand {e : Expr K} (h : e.ListFree) : e.ListSummand := by
  cases e with
  | op o l r => exact .inl h
  | _ => trivial

theorem ListSummand.listFree {o : Operator} {l r : Expr K} (h : (op o l r).ListSummand)
    (hadd : o ≠ .add) (hsub : o ≠ .sub) : (op o l r).ListFree :=
  h.resolve_right fun hh => hh.1.elim hadd hsub

theorem Constants.imp {P Q : Value K → Prop} (hPQ : ∀ v, P v → Q v) {e : Expr K}
    (h : e.Constants P) : e.Constants Q := by
  induction e with
  | constant v => exact hPQ v h
  | var name c => trivial
  | op o l r ihl ihr => exact ⟨ihl h.1, ihr h.2⟩

/-- The value of an expression whose variables have single numbers. -/
def valueAt [Arithmetic K] (ρ : Char → K) : Expr K → Value K
  | constant v => v
  | var name c => .scalar (ρ name * c)
  | op o l r => o.combine (l.valueAt ρ) (r.valueAt ρ)

end Expr

namespace Simplification

open ComplexAlgebra.Expr

variable {K : Type} [Arithmetic K]

/-- The rule from `e` to `e'` takes the constant `c` to the other side of the operand `r`. -/
inductive Exchanges : Expr K → Expr K → Value K → Expr K → Prop
  | add_comm (c : Value K) (e : Expr K) :
    Exchanges (.op .add (.constant c) e) (.op .add e (.constant c)) c e
  | difference_constant (negated : Bool) (c k : Value K) (e : Expr K) :
    Exchanges (.op (additive negated) (.op .sub (.constant c) e) (.constant k))
      (.op .sub (.constant (c.combine (· + ·) (k.withSign negated))) e) k e
  | constant_add_sum (k c : Value K) (e : Expr K) :
    Exchanges (.op .add (.constant k) (.op .add e (.constant c)))
      (.op .add e (.constant (k.combine (· + ·) c))) k e
  | constant_sub_sum (k c : Value K) (e : Expr K) :
    Exchanges (.op .sub (.constant k) (.op .add e (.constant c)))
      (.op .sub (.constant (k.combine (· + ·) (c.map (- ·)))) e) c e
  | constant_sub_difference_left (k c : Value K) (e : Expr K) :
    Exchanges (.op .sub (.constant k) (.op .sub (.constant c) e))
      (.op .add e (.constant (k.combine (· + ·) (c.map (- ·))))) k e
  | constant_sub_difference_right (k c : Value K) (e : Expr K) :
    Exchanges (.op .sub (.constant k) (.op .sub (.constant c) e))
      (.op .add e (.constant (k.combine (· + ·) (c.map (- ·))))) c e
  | mul_comm (e : Expr K) (k : Value K) :
    Exchanges (.op .mul e (.constant k)) (.op .mul (.constant k) e) k e
  | mul_dividend (c k : Value K) (e : Expr K) :
    Exchanges (.op .mul (.constant c) (.op .div e (.constant k)))
      (.op .mul (.constant (Operator.div.combine c k)) e) k e
  | product_div (c k : Value K) (e : Expr K) :
    Exchanges (.op .div (.op .mul (.constant c) e) (.constant k))
      (.op .mul (.constant (Operator.div.combine c k)) e) k e
  | divisor_div (c k : Value K) (e : Expr K) :
    Exchanges (.op .div (.op .div (.constant c) e) (.constant k))
      (.op .div (.constant (Operator.div.combine c k)) e) k e

/-- The rule from `e` to `e'` gives the constant `v` to both terms of a sum. -/
inductive Copies : Expr K → Expr K → Value K → Prop
  | sum_mul (negated : Bool) (a b : Expr K) (v : Value K) :
    Copies (.op .mul (.op (additive negated) a b) (.constant v))
      (.op (additive negated) (.op .mul a (.constant v)) (.op .mul b (.constant v))) v
  | mul_sum (negated : Bool) (a b : Expr K) (v : Value K) :
    Copies (.op .mul (.constant v) (.op (additive negated) a b))
      (.op (additive negated) (.op .mul (.constant v) a) (.op .mul (.constant v) b)) v
  | sum_div (negated : Bool) (a b : Expr K) (v : Value K) :
    Copies (.op .div (.op (additive negated) a b) (.constant v))
      (.op (additive negated) (.op .div a (.constant v)) (.op .div b (.constant v))) v

/-- The rule from `e` to `e'` leaves out the operand `r`. -/
inductive Drops : Expr K → Expr K → Expr K → Prop
  | zero_mul (x : K) (e : Expr K) : Drops (.op .mul (.number x) e) (.number 0) e
  | pow_zero (e : Expr K) (x : K) : Drops (.op .pow e (.number x)) (.number 1) e

/-- Of two operands that a rule exchanges one has at most one number, and so has a constant that it
copies. What it drops holds no list. -/
structure KeepsLists (e e' : Expr K) : Prop where
  exchanges : ∀ c r, Exchanges e e' c r → c.Single ∨ r.Constants Value.Single
  copies : ∀ v, Copies e e' v → v.Single
  drops : ∀ r, Drops e e' r → r.ListFree

/-- Rewriting with applications of the rules that satisfy `P`. -/
abbrev RewritesBy (P : Expr K → Expr K → Prop) : Expr K → Expr K → Prop :=
  Closure fun e e' => Rule e e' ∧ P e e'

variable {e e' : Expr K}

theorem listFree_collected (name : Char) (c : K) : (collected name c).ListFree := by
  unfold collected
  split <;> trivial

theorem listFree_scaled {k : K} (he : e.ListFree) : (scaled k e).ListFree := by
  unfold scaled
  split
  · exact he
  · exact ⟨trivial, he⟩

theorem Rule.listFree (h : Rule e e') (he : e.ListFree) : e'.ListFree := by
  have hscalar (x : K) : (Value.scalar x).IsScalar := trivial
  cases h with
  | fold o v w => exact Value.isScalar_combine.2 he
  | sum h =>
    cases h with
    | collect => exact listFree_collected _ _
    | zero_sub => exact listFree_collected _ _
    | _ =>
      simp only [Constants, Value.isScalar_combine, Value.isScalar_map,
        Value.isScalar_withSign] at he ⊢
      tauto
  | product h =>
    cases h with
    | var_mul_self => exact listFree_scaled ⟨trivial, trivial⟩
    | var_mul_var => exact listFree_scaled ⟨trivial, trivial⟩
    | _ =>
      simp only [Constants, Operator.combine, Value.isScalar_combine, hscalar] at he ⊢ <;> tauto
  | quotient h =>
    cases h with
    | var_div_var => exact listFree_scaled ⟨trivial, trivial⟩
    | _ =>
      simp only [Constants, Operator.combine, Value.isScalar_combine, hscalar] at he ⊢ <;> tauto
  | power h =>
    cases h <;>
      simp only [Constants, Operator.combine, Value.isScalar_combine, hscalar] at he ⊢ <;> tauto

theorem Rewrites.listFree (h : Rewrites e e') (he : e.ListFree) : e'.ListFree := by
  induction h with
  | refl e => exact he
  | rule h => exact h.listFree he
  | trans _ _ ih ih' => exact ih' (ih he)
  | operands o _ _ ihl ihr => exact ⟨ihl he.1, ihr he.2⟩

theorem SumRule.listSummand (h : SumRule e e') (he : e.ListSummand) : e'.ListSummand := by
  have hfree {e : Expr K} : e.ListFree → e.ListSummand := ListFree.listSummand
  cases h with
  | collect => exact hfree (listFree_collected _ _)
  | zero_sub => exact hfree (listFree_collected _ _)
  | _ =>
    simp only [Constants, ListSummand, Value.isScalar_combine, Value.isScalar_map,
      Value.isScalar_withSign] at he ⊢
    tauto

theorem Rule.listSummand (h : Rule e e') (he : e.ListSummand) : e'.ListSummand := by
  -- No list stands in the operands of the other rules, because it would not be a summand there.
  cases h with
  | fold o v w => trivial
  | sum h => exact h.listSummand he
  | product h =>
    have hfree : e.ListFree := by cases h <;> exact he.listFree (by decide) (by decide)
    exact ((Rule.product h).listFree hfree).listSummand
  | quotient h =>
    have hfree : e.ListFree := by cases h <;> exact he.listFree (by decide) (by decide)
    exact ((Rule.quotient h).listFree hfree).listSummand
  | power h =>
    have hfree : e.ListFree := by cases h <;> exact he.listFree (by decide) (by decide)
    exact ((Rule.power h).listFree hfree).listSummand

theorem keepsLists_of_listSummand (he : e.ListSummand) : KeepsLists e e' := by
  have hsingle {v : Value K} (hv : v.IsScalar) : v.Single := by
    obtain ⟨x, rfl⟩ := Value.isScalar_iff.1 hv
    exact .scalar x
  refine ⟨fun c r h => ?_, fun v h => ?_, fun r h => ?_⟩
  · have hh : c.IsScalar ∨ r.ListFree := by
      cases h <;> simp only [ListSummand, Constants] at he <;> tauto
    exact hh.imp hsingle fun hr => hr.imp fun _ => hsingle
  · cases h with
    | sum_mul => exact hsingle (he.listFree (by decide) (by decide)).2
    | mul_sum => exact hsingle (he.listFree (by decide) (by decide)).1
    | sum_div => exact hsingle (he.listFree (by decide) (by decide)).2
  · cases h with
    | zero_mul => exact (he.listFree (by decide) (by decide)).2
    | pow_zero => exact (he.listFree (by decide) (by decide)).1

/-- A list that is only a summand keeps its place. -/
theorem Rewrites.keepsLists (h : Rewrites e e') (he : e.ListSummand) :
    e'.ListSummand ∧ RewritesBy KeepsLists e e' := by
  induction h with
  | refl e => exact ⟨he, .refl e⟩
  | rule h => exact ⟨h.listSummand he, .rule ⟨h, keepsLists_of_listSummand he⟩⟩
  | trans _ _ ih ih' =>
    obtain ⟨he', hr⟩ := ih he
    obtain ⟨he'', hr'⟩ := ih' he'
    exact ⟨he'', hr.trans hr'⟩
  | operands o hl hr ihl ihr =>
    have hfreeL := Rewrites.listFree hl
    have hfreeR := Rewrites.listFree hr
    rcases he with ⟨hel, her⟩ | ⟨ho, ⟨hel, her⟩ | ⟨hel, her⟩⟩
    · exact ⟨.inl ⟨hfreeL hel, hfreeR her⟩,
        .operands o (ihl hel.listSummand).2 (ihr her.listSummand).2⟩
    · exact ⟨.inr ⟨ho, .inl ⟨(ihl hel).1, hfreeR her⟩⟩,
        .operands o (ihl hel).2 (ihr her.listSummand).2⟩
    · exact ⟨.inr ⟨ho, .inr ⟨hfreeL hel, (ihr her).1⟩⟩,
        .operands o (ihl hel.listSummand).2 (ihr her).2⟩

theorem additive_ne_pow (negated : Bool) : additive negated ≠ .pow := by
  cases negated <;> decide

end Simplification

namespace Expr

variable {ρ : Char → ExactNumber} {e e' l r : Expr ExactNumber} {a : ℂ}

theorem Constants.valueAt {P : Value ExactNumber → Prop} (hscalar : ∀ x, P (.scalar x))
    (hcombine : ∀ (o : Operator) v w, P v → P w → P (o.combine v w)) (h : e.Constants P) :
    P (e.valueAt ρ) := by
  induction e with
  | constant v => exact h
  | var name c => exact hscalar _
  | op o l r ihl ihr => exact hcombine o _ _ (ihl h.1) (ihr h.2)

theorem isScalar_valueAt (h : e.ListFree) : (e.valueAt ρ).IsScalar :=
  h.valueAt (fun _ => trivial) fun _ _ _ hv hw => Value.isScalar_combine.2 ⟨hv, hw⟩

theorem single_valueAt (h : e.Constants Value.Single) : (e.valueAt ρ).Single :=
  h.valueAt .scalar fun _ _ _ => .combine

theorem valueAt_of_denotes (h : Denotes (fun name => (ρ name).value?) e a) :
    e.valueAt ρ = .scalar (ofComplex a) := by
  induction h with
  | number h => rw [valueAt, value?_eq_some_iff.1 h]
  | var h hc =>
    exact congrArg Value.scalar (value?_eq_some_iff.1 (value?_apply (o := .mul) h hc (.mul _ _)))
  | op hl hr h ihl ihr =>
    rw [valueAt, ihl, ihr]
    exact congrArg Value.scalar
      (value?_eq_some_iff.1 (value?_apply (value?_ofComplex _) (value?_ofComplex _) h))

theorem denotes_of_valueAt {S : Set ℤ} (he : e.ExponentsIn S) {x : ExactNumber}
    (h : e.valueAt ρ = .scalar x) (hx : x.value? = some a) :
    Denotes (fun name => (ρ name).value?) e a := by
  induction e generalizing x a with
  | constant v =>
    cases h
    exact .number hx
  | var name c =>
    cases h
    obtain ⟨b, d, hb, hd, hmul⟩ := computes_of_value?_apply (o := .mul) hx (fun h => by cases h)
    cases hmul
    exact .var hb hd
  | op o l r ihl ihr =>
    obtain ⟨hel, her, hexp⟩ := he
    rw [valueAt] at h
    cases hl : l.valueAt ρ with
    | list xs =>
      rw [hl] at h
      cases h
    | scalar y =>
      cases hr : r.valueAt ρ with
      | list ys =>
        rw [hl, hr] at h
        cases h
      | scalar z =>
        rw [hl, hr] at h
        cases h
        have hpow : o = .pow → ∃ b, z.value? = some b := by
          intro ho
          obtain ⟨n, -, hn⟩ := hexp ho
          cases hr.symm.trans (valueAt_of_denotes (hn _))
          exact ⟨_, value?_ofComplex _⟩
        obtain ⟨b, d, hb, hd, hop⟩ := computes_of_value?_apply hx hpow
        exact .op (ihl hel hl hb) (ihr her hr hd) hop

end Expr

namespace Comparison

open ComplexAlgebra.Expr

variable {C : Comparison} {ρ : Char → ExactNumber} {e e' : Expr ExactNumber}

/-- The comparison allows what the rule from `e` to `e'` exchanges, copies and drops. -/
structure Admits (C : Comparison) (ρ : Char → ExactNumber) (e e' : Expr ExactNumber) : Prop where
  exchanges : ∀ c r, Exchanges e e' c r → C.Loose c ∨ C.Loose (r.valueAt ρ)
  copies : ∀ v, Copies e e' v → C.Loose v
  drops : ∀ r, Drops e e' r → C.Idle (r.valueAt ρ)

theorem rel_of_scalar (C : Comparison) (h : Rule e e') (he : e.ExponentsIn Set.univ)
    {x y : ExactNumber} (hx : e.valueAt ρ = .scalar x) (hy : e'.valueAt ρ = .scalar y) :
    C.Rel (.scalar x) (.scalar y) := by
  refine C.scalar fun a ha => ?_
  cases hy.symm.trans (valueAt_of_denotes (denotes_of_rule h he (denotes_of_valueAt he hx ha)))
  exact value?_ofComplex a

theorem rel_of_listFree (C : Comparison) (h : Rule e e') (he : e.ExponentsIn Set.univ)
    (hl : e.ListFree) (hl' : e'.ListFree) :
    C.Rel (e.valueAt ρ) (e'.valueAt ρ) := by
  obtain ⟨x, hx⟩ := Value.isScalar_iff.1 (isScalar_valueAt (ρ := ρ) hl)
  obtain ⟨y, hy⟩ := Value.isScalar_iff.1 (isScalar_valueAt (ρ := ρ) hl')
  rw [hx, hy]
  exact C.rel_of_scalar h he hx hy

/-- An operand that leaves every number of the other as it is. -/
theorem neutral {v : Value ExactNumber} {f : ExactNumber → Value ExactNumber}
    (hf : ∀ y, C.Rel (f y) (.scalar y)) : C.Rel (v.bind f) v := by
  have hh := C.bind v hf
  rwa [Value.bind_scalar] at hh

/-- An operand under which every number of the other becomes the same. -/
theorem vanish {v : Value ExactNumber} {x : ExactNumber} (hv : C.Idle v)
    {f : ExactNumber → Value ExactNumber} (hf : ∀ y, C.Rel (f y) (.scalar x)) :
    C.Rel (v.bind f) (.scalar x) :=
  C.trans (C.bind v hf) (C.drop (.scalar x) hv)

/-- A constant changes places with the operand behind it. -/
theorem exchange {v w : Value ExactNumber} (h : C.Loose v ∨ C.Loose w)
    {f g : ExactNumber → ExactNumber → Value ExactNumber} (hfg : ∀ x y, C.Rel (f x y) (g x y)) :
    C.Rel (v.bind fun x => w.bind (f x)) (w.bind fun y => v.bind fun x => g x y) :=
  C.trans (C.swap f h) (C.bind w fun y => C.bind v fun x => hfg x y)

theorem rel_of_sumRule (h : SumRule e e') (ha : C.Admits ρ e e') :
    C.Rel (e.valueAt ρ) (e'.valueAt ρ) := by
  have hnumbers {e e' : Expr ExactNumber} (h : SumRule e e') (he : e.Rational) {x y : ExactNumber}
      (hx : e.valueAt ρ = .scalar x) (hy : e'.valueAt ρ = .scalar y) :
      C.Rel (.scalar x) (.scalar y) :=
    C.rel_of_scalar (.sum h) he.exponentsIn hx hy
  -- With all operands taken apart into their numbers, the rule remains to be applied to numbers.
  -- Before that, operands whose order it changes are exchanged.
  cases h with
  | collect negated name c d =>
    exact C.rel_of_listFree (.sum (.collect negated name c d))
      (exponentsIn_additive_iff.2 ⟨trivial, trivial⟩) ⟨trivial, trivial⟩ (listFree_collected _ _)
  | @add_zero negated _ x h0 =>
    rw [valueAt, Operator.combine, Value.combine_eq_bind]
    exact neutral fun y =>
      hnumbers (.add_zero negated (.number y) h0) ⟨additive_ne_pow negated, trivial, trivial⟩
        rfl rfl
  | @zero_add _ x h0 =>
    rw [valueAt, Operator.combine, Value.combine_eq_bind]
    exact neutral fun y =>
      hnumbers (.zero_add (.number y) h0) ⟨by decide, trivial, trivial⟩ rfl rfl
  | @zero_sub name d x h0 =>
    exact C.rel_of_listFree (.sum (.zero_sub name d h0))
      (.of_ne_pow (by decide) trivial trivial) ⟨trivial, trivial⟩ (listFree_collected _ _)
  | add_comm c e =>
    have hloose := ha.exchanges c e (.add_comm c e)
    simp only [valueAt, Operator.combine, Value.combine_eq_bind]
    exact exchange hloose fun y x =>
      hnumbers (.add_comm (.scalar y) (.number x)) ⟨by decide, trivial, trivial⟩ rfl rfl
  | sub_constant e c =>
    simp only [valueAt, Operator.combine, Value.combine_eq_bind, Value.map_eq_bind,
      Value.bind_assoc, Value.scalar_bind]
    exact C.bind _ fun x => C.bind _ fun y =>
      hnumbers (.sub_constant (.number x) (.scalar y)) ⟨by decide, trivial, trivial⟩ rfl rfl
  | sum_constant negated e c k =>
    simp only [valueAt, Operator.combine, Value.combine_eq_bind, Value.withSign_eq_map,
      Value.map_eq_bind, Value.bind_assoc, Value.scalar_bind]
    exact C.bind _ fun x => C.bind _ fun y => C.bind _ fun z =>
      hnumbers (.sum_constant negated (.number x) (.scalar y) (.scalar z))
        ⟨additive_ne_pow negated, ⟨by decide, trivial, trivial⟩, trivial⟩ rfl
        (by cases negated <;> rfl)
  | difference_constant negated c k e =>
    have hloose := ha.exchanges k e (.difference_constant negated c k e)
    simp only [valueAt, Operator.combine, Value.combine_eq_bind, Value.withSign_eq_map,
      Value.map_eq_bind, Value.bind_assoc, Value.scalar_bind]
    exact C.bind _ fun x => exchange hloose.symm fun y z =>
      hnumbers (.difference_constant negated (.scalar x) (.scalar z) (.number y))
        ⟨additive_ne_pow negated, ⟨by decide, trivial, trivial⟩, trivial⟩ rfl
        (by cases negated <;> rfl)
  | constant_add_sum k c e =>
    have hloose := ha.exchanges k e (.constant_add_sum k c e)
    simp only [valueAt, Operator.combine, Value.combine_eq_bind, Value.bind_assoc,
      Value.scalar_bind]
    exact exchange hloose fun z x => C.bind _ fun y =>
      hnumbers (.constant_add_sum (.scalar z) (.scalar y) (.number x))
        ⟨by decide, trivial, ⟨by decide, trivial, trivial⟩⟩ rfl rfl
  | constant_sub_sum k c e =>
    have hloose := ha.exchanges c e (.constant_sub_sum k c e)
    simp only [valueAt, Operator.combine, Value.combine_eq_bind, Value.map_eq_bind,
      Value.bind_assoc, Value.scalar_bind]
    exact C.bind _ fun z => exchange hloose.symm fun x y =>
      hnumbers (.constant_sub_sum (.scalar z) (.scalar y) (.number x))
        ⟨by decide, trivial, ⟨by decide, trivial, trivial⟩⟩ rfl rfl
  | constant_add_difference k c e =>
    simp only [valueAt, Operator.combine, Value.combine_eq_bind, Value.bind_assoc,
      Value.scalar_bind]
    exact C.bind _ fun z => C.bind _ fun y => C.bind _ fun x =>
      hnumbers (.constant_add_difference (.scalar z) (.scalar y) (.number x))
        ⟨by decide, trivial, ⟨by decide, trivial, trivial⟩⟩ rfl rfl
  | constant_sub_difference k c e =>
    have hleft := ha.exchanges k e (.constant_sub_difference_left k c e)
    have hright := ha.exchanges c e (.constant_sub_difference_right k c e)
    simp only [valueAt, Operator.combine, Value.combine_eq_bind, Value.map_eq_bind,
      Value.bind_assoc, Value.scalar_bind]
    refine C.trans (C.bind _ fun z => C.swap _ hright) ?_
    exact exchange hleft fun z x => C.bind _ fun y =>
      hnumbers (.constant_sub_difference (.scalar z) (.scalar y) (.number x))
        ⟨by decide, trivial, ⟨by decide, trivial, trivial⟩⟩ rfl rfl

theorem spread_front {v : Value ExactNumber} (w : Value ExactNumber) (hv : C.Loose v)
    {f : ExactNumber → ExactNumber → Value ExactNumber}
    {g : ExactNumber → ExactNumber → ExactNumber → Value ExactNumber}
    (hfg : ∀ x y, C.Rel (f x y) (g x y x)) :
    C.Rel (v.bind fun x => w.bind (f x))
      (v.bind fun x => w.bind fun y => v.bind fun x' => g x y x') := by
  have hcopy := C.copy (fun x x' => w.bind fun y => g x y x') hv
  exact C.trans (C.trans (C.bind v fun x => C.bind w (hfg x)) hcopy)
    (C.bind v fun x => C.swap (fun x' y => g x y x') (.inl hv))

theorem spread_behind {v : Value ExactNumber} (w : Value ExactNumber) (hv : C.Loose v)
    {f : ExactNumber → ExactNumber → Value ExactNumber}
    {g : ExactNumber → ExactNumber → ExactNumber → Value ExactNumber}
    (hfg : ∀ x y, C.Rel (f x y) (g y x y)) :
    C.Rel (w.bind fun x => v.bind (f x))
      (v.bind fun y => w.bind fun x => v.bind fun y' => g y x y') := by
  have hcopy (x : ExactNumber) := C.copy (fun y y' => g y x y') hv
  exact C.trans (C.bind w fun x => C.trans (C.bind v (hfg x)) (hcopy x))
    (C.swap (fun x y => v.bind fun y' => g y x y') (.inr hv))

theorem loose_valueAt (he : e.isOperator = false) (h : ∀ v, e = .constant v → C.Loose v) :
    C.Loose (e.valueAt ρ) := by
  cases e with
  | constant v => exact h v rfl
  | var name c => exact C.loose_scalar _
  | op => cases he

theorem rel_of_productRule (h : ProductRule e e') (ha : C.Admits ρ e e') :
    C.Rel (e.valueAt ρ) (e'.valueAt ρ) := by
  have hnumbers {e e' : Expr ExactNumber} (h : ProductRule e e') (he : e.Rational)
      {x y : ExactNumber} (hx : e.valueAt ρ = .scalar x) (hy : e'.valueAt ρ = .scalar y) :
      C.Rel (.scalar x) (.scalar y) :=
    C.rel_of_scalar (.product h) he.exponentsIn hx hy
  have hvars {a b : Char} {c d : ExactNumber} :
      (Expr.op .mul (.var a c) (.var b d)).ExponentsIn Set.univ :=
    .of_ne_pow (by decide) trivial trivial
  cases h with
  | mul_comm e k =>
    have hloose := ha.exchanges k e (.mul_comm e k)
    simp only [valueAt, Operator.combine, Value.combine_eq_bind]
    exact exchange hloose.symm fun x y =>
      hnumbers (.mul_comm (.number x) (.scalar y)) ⟨by decide, trivial, trivial⟩ rfl rfl
  | @one_mul _ x h1 =>
    rw [valueAt, Operator.combine, Value.combine_eq_bind]
    exact neutral fun y =>
      hnumbers (.one_mul (.number y) h1) ⟨by decide, trivial, trivial⟩ rfl rfl
  | @zero_mul e x h0 =>
    simp only [valueAt, Operator.combine, Value.combine_eq_bind, Value.scalar_bind]
    exact vanish (ha.drops e (.zero_mul x e)) fun y =>
      hnumbers (.zero_mul (.number y) h0) ⟨by decide, trivial, trivial⟩ rfl rfl
  | number_mul_var k name c =>
    exact C.rel_of_listFree (.product (.number_mul_var k name c))
      (.of_ne_pow (by decide) trivial trivial) ⟨trivial, trivial⟩ trivial
  | var_mul_self name c d =>
    exact C.rel_of_listFree (.product (.var_mul_self name c d)) hvars ⟨trivial, trivial⟩
      (listFree_scaled ⟨trivial, trivial⟩)
  | var_mul_var name other c d =>
    exact C.rel_of_listFree (.product (.var_mul_var name other c d)) hvars ⟨trivial, trivial⟩
      (listFree_scaled ⟨trivial, trivial⟩)
  | @sum_mul negated a b e h =>
    have hloose : C.Loose (e.valueAt ρ) :=
      loose_valueAt h fun v hv => ha.copies v (hv ▸ .sum_mul negated a b v)
    simp only [valueAt, Operator.combine, Value.combine_eq_bind, Value.bind_assoc,
      Value.scalar_bind]
    exact C.bind _ fun x => spread_behind _ hloose fun y z =>
      hnumbers (.sum_mul negated (.number x) (.number y) (e := .number z) rfl)
        ⟨by decide, ⟨additive_ne_pow negated, trivial, trivial⟩, trivial⟩ rfl rfl
  | @mul_sum negated a b e h =>
    have hloose : C.Loose (e.valueAt ρ) :=
      loose_valueAt h fun v hv => ha.copies v (hv ▸ .mul_sum negated a b v)
    simp only [valueAt, Operator.combine, Value.combine_eq_bind, Value.bind_assoc,
      Value.scalar_bind]
    exact spread_front _ hloose fun z x => C.bind _ fun y =>
      hnumbers (.mul_sum negated (.number x) (.number y) (e := .number z) rfl)
        ⟨by decide, trivial, ⟨additive_ne_pow negated, trivial, trivial⟩⟩ rfl rfl
  | mul_product c k e =>
    simp only [valueAt, Operator.combine, Value.combine_eq_bind, Value.bind_assoc,
      Value.scalar_bind]
    exact C.bind _ fun x => C.bind _ fun y => C.bind _ fun z =>
      hnumbers (.mul_product (.scalar x) (.scalar y) (.number z))
        ⟨by decide, trivial, ⟨by decide, trivial, trivial⟩⟩ rfl rfl
  | mul_dividend c k e =>
    have hloose := ha.exchanges k e (.mul_dividend c k e)
    simp only [valueAt, Operator.combine, Value.combine_eq_bind, Value.bind_assoc,
      Value.scalar_bind]
    exact C.bind _ fun x => exchange hloose.symm fun z y =>
      hnumbers (.mul_dividend (.scalar x) (.scalar y) (.number z))
        ⟨by decide, trivial, ⟨by decide, trivial, trivial⟩⟩ rfl rfl
  | mul_divisor c k e =>
    simp only [valueAt, Operator.combine, Value.combine_eq_bind, Value.bind_assoc,
      Value.scalar_bind]
    exact C.bind _ fun x => C.bind _ fun y => C.bind _ fun z =>
      hnumbers (.mul_divisor (.scalar x) (.scalar y) (.number z))
        ⟨by decide, trivial, ⟨by decide, trivial, trivial⟩⟩ rfl rfl

theorem rel_of_quotientRule (h : QuotientRule e e') (ha : C.Admits ρ e e') :
    C.Rel (e.valueAt ρ) (e'.valueAt ρ) := by
  have hnumbers {e e' : Expr ExactNumber} (h : QuotientRule e e') (he : e.Rational)
      {x y : ExactNumber} (hx : e.valueAt ρ = .scalar x) (hy : e'.valueAt ρ = .scalar y) :
      C.Rel (.scalar x) (.scalar y) :=
    C.rel_of_scalar (.quotient h) he.exponentsIn hx hy
  have hvar {a : Char} {c : ExactNumber} {e : Expr ExactNumber} (he : e.ExponentsIn Set.univ) :
      (Expr.op .div (.var a c) e).ExponentsIn Set.univ :=
    .of_ne_pow (by decide) trivial he
  cases h with
  | @div_one _ x h1 =>
    rw [valueAt, Operator.combine, Value.combine_eq_bind]
    exact neutral fun y =>
      hnumbers (.div_one (.number y) h1) ⟨by decide, trivial, trivial⟩ rfl rfl
  | var_div_self name c d =>
    exact C.rel_of_listFree (.quotient (.var_div_self name c d)) (hvar trivial)
      ⟨trivial, trivial⟩ trivial
  | var_div_var name other c d =>
    exact C.rel_of_listFree (.quotient (.var_div_var name other c d)) (hvar trivial)
      ⟨trivial, trivial⟩ (listFree_scaled ⟨trivial, trivial⟩)
  | var_div_number name c k =>
    exact C.rel_of_listFree (.quotient (.var_div_number name c k)) (hvar trivial)
      ⟨trivial, trivial⟩ trivial
  | @sum_div negated a b e h =>
    have hloose : C.Loose (e.valueAt ρ) :=
      loose_valueAt h fun v hv => ha.copies v (hv ▸ .sum_div negated a b v)
    simp only [valueAt, Operator.combine, Value.combine_eq_bind, Value.bind_assoc,
      Value.scalar_bind]
    exact C.bind _ fun x => spread_behind _ hloose fun y z =>
      hnumbers (.sum_div negated (.number x) (.number y) (e := .number z) rfl)
        ⟨by decide, ⟨additive_ne_pow negated, trivial, trivial⟩, trivial⟩ rfl rfl
  | product_div c k e =>
    have hloose := ha.exchanges k e (.product_div c k e)
    simp only [valueAt, Operator.combine, Value.combine_eq_bind, Value.bind_assoc,
      Value.scalar_bind]
    exact C.bind _ fun x => exchange hloose.symm fun z y =>
      hnumbers (.product_div (.scalar x) (.scalar y) (.number z))
        ⟨by decide, ⟨by decide, trivial, trivial⟩, trivial⟩ rfl rfl
  | dividend_div c k e =>
    simp only [valueAt, Operator.combine, Value.combine_eq_bind, Value.bind_assoc,
      Value.scalar_bind]
    exact C.bind _ fun z => C.bind _ fun x => C.bind _ fun y =>
      hnumbers (.dividend_div (.scalar x) (.scalar y) (.number z))
        ⟨by decide, ⟨by decide, trivial, trivial⟩, trivial⟩ rfl rfl
  | divisor_div c k e =>
    have hloose := ha.exchanges k e (.divisor_div c k e)
    simp only [valueAt, Operator.combine, Value.combine_eq_bind, Value.bind_assoc,
      Value.scalar_bind]
    exact C.bind _ fun x => exchange hloose.symm fun z y =>
      hnumbers (.divisor_div (.scalar x) (.scalar y) (.number z))
        ⟨by decide, ⟨by decide, trivial, trivial⟩, trivial⟩ rfl rfl

theorem rel_of_powerRule (h : PowerRule e e') (he : e.ExponentsIn Set.univ)
    (ha : C.Admits ρ e e') : C.Rel (e.valueAt ρ) (e'.valueAt ρ) := by
  have hnumbers {e e' : Expr ExactNumber} (h : PowerRule e e') (he : e.ExponentsIn Set.univ)
      {x y : ExactNumber} (hx : e.valueAt ρ = .scalar x) (hy : e'.valueAt ρ = .scalar y) :
      C.Rel (.scalar x) (.scalar y) :=
    C.rel_of_scalar (.power h) he hx hy
  -- Exponents are single numbers, so only the base can hold a list.
  have hexponent (n : ℤ) : ∃ m ∈ Set.univ, ∀ ρ, Denotes ρ (.number (ofComplex n)) (m : ℤ) :=
    ⟨n, trivial, fun _ => .number (value?_ofComplex _)⟩
  cases h with
  | @pow_zero e x h0 =>
    simp only [valueAt, Operator.combine, Value.combine_eq_bind, Value.scalar_bind]
    exact vanish (ha.drops e (.pow_zero e x)) fun y =>
      hnumbers (.pow_zero (.number y) h0) ⟨trivial, he.2⟩ rfl rfl
  | @pow_one _ x h1 =>
    rw [valueAt, Operator.combine, Value.combine_eq_bind]
    exact neutral fun y => hnumbers (.pow_one (.number y) h1) ⟨trivial, he.2⟩ rfl rfl
  | var_pow name c w =>
    obtain ⟨n, -, hn⟩ := he.2.2 rfl
    obtain ⟨z, rfl, -⟩ := denotes_constant_iff.1 (hn fun _ => none)
    exact C.rel_of_listFree (.power (.var_pow name c (.scalar z))) he ⟨trivial, trivial⟩
      ⟨trivial, trivial, trivial⟩
  | product_pow l r w =>
    obtain ⟨n, -, hn⟩ := he.2.2 rfl
    simp only [valueAt, valueAt_of_denotes (hn _), Operator.combine, Value.combine_eq_bind,
      Value.bind_assoc, Value.scalar_bind]
    exact C.bind _ fun x => C.bind _ fun y =>
      hnumbers (.product_pow (.number x) (.number y) (.number (ofComplex n)))
        ⟨.of_ne_pow (by decide) trivial trivial, trivial, fun _ => hexponent n⟩ rfl rfl
  | quotient_pow l r w =>
    obtain ⟨n, -, hn⟩ := he.2.2 rfl
    simp only [valueAt, valueAt_of_denotes (hn _), Operator.combine, Value.combine_eq_bind,
      Value.bind_assoc, Value.scalar_bind]
    exact C.bind _ fun x => C.bind _ fun y =>
      hnumbers (.quotient_pow (.number x) (.number y) (.number (ofComplex n)))
        ⟨.of_ne_pow (by decide) trivial trivial, trivial, fun _ => hexponent n⟩ rfl rfl
  | pow_pow b w w' =>
    obtain ⟨m, -, hm⟩ := he.1.2.2 rfl
    obtain ⟨n, -, hn⟩ := he.2.2 rfl
    simp only [valueAt, valueAt_of_denotes (hm _), valueAt_of_denotes (hn _), Operator.combine,
      Value.combine_eq_bind, Value.bind_assoc, Value.scalar_bind]
    exact C.bind _ fun x =>
      hnumbers (.pow_pow (.number x) (.number (ofComplex m)) (.number (ofComplex n)))
        ⟨⟨trivial, trivial, fun _ => hexponent m⟩, trivial, fun _ => hexponent n⟩ rfl rfl

theorem rel_of_rule (h : Rule e e') (he : e.ExponentsIn Set.univ) (ha : C.Admits ρ e e') :
    C.Rel (e.valueAt ρ) (e'.valueAt ρ) := by
  cases h with
  | fold o v w => exact C.refl _
  | sum h => exact rel_of_sumRule h ha
  | product h => exact rel_of_productRule h ha
  | quotient h => exact rel_of_quotientRule h ha
  | power h => exact rel_of_powerRule h he ha

theorem rel_of_closure {R : Expr ExactNumber → Expr ExactNumber → Prop}
    (hR : ∀ e e', R e e' → Rule e e' ∧ C.Admits ρ e e') (h : Closure R e e')
    (he : e.ExponentsIn Set.univ) : C.Rel (e.valueAt ρ) (e'.valueAt ρ) := by
  induction h with
  | refl e => exact C.refl _
  | rule h => exact rel_of_rule (hR _ _ h).1 he (hR _ _ h).2
  | trans h _ ih ih' =>
    have hrewrites : Rewrites _ _ := h.mono fun _ _ h => (hR _ _ h).1
    exact C.trans (ih he) (ih' (hrewrites.keeps Scope.exponentSet_univ he).1)
  | operands o hl hr ihl ihr =>
    obtain ⟨hel, her, hexp⟩ := he
    refine C.apply (fun ho => ?_) (ihl hel) (ihr her)
    obtain ⟨n, -, hn⟩ := hexp ho
    rw [valueAt_of_denotes (hn _)]
    exact fun x hx => ⟨_, List.mem_singleton.1 hx ▸ value?_ofComplex _⟩

theorem admits_covering (ρ : Char → ExactNumber) (e e' : Expr ExactNumber) :
    covering.Admits ρ e e' :=
  ⟨fun _ _ _ => .inl trivial, fun _ _ => trivial, fun _ _ => trivial⟩

theorem admits_refinement (h : KeepsLists e e') : refinement.Admits ρ e e' :=
  ⟨fun c r hcr => (h.exchanges c r hcr).imp_right single_valueAt, h.copies,
    fun r hr => isScalar_valueAt (h.drops r hr)⟩

end Comparison

end ComplexAlgebra
