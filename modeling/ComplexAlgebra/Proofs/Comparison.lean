import ComplexAlgebra.Proofs.Rational

/-! Values before and after a rewriting. An operation on values runs through the numbers of one
operand inside those of the other; two lists that change places, a list that is copied and a list
that is dropped change the value, so a comparison of values says which of them it admits. -/
namespace ComplexAlgebra

open ExactNumber

namespace Value

variable {K L M : Type}

/-- Every number of the value replaced by the numbers of another value. -/
def bind (v : Value K) (f : K → Value L) : Value L :=
  match v with
  | scalar x => f x
  | list xs => list (xs.flatMap fun x => (f x).elements)

@[simp] theorem scalar_bind (x : K) (f : K → Value L) : (scalar x).bind f = f x := rfl

theorem elements_bind (v : Value K) (f : K → Value L) :
    (v.bind f).elements = v.elements.flatMap fun x => (f x).elements := by
  cases v <;> simp [bind]

theorem mem_bind {v : Value K} {f : K → Value L} {y : L} :
    y ∈ (v.bind f).elements ↔ ∃ x ∈ v.elements, y ∈ (f x).elements := by
  rw [elements_bind, List.mem_flatMap]

@[simp] theorem bind_scalar (v : Value K) : v.bind scalar = v := by
  cases v <;> simp [bind]

@[simp] theorem bind_assoc (v : Value K) (f : K → Value L) (g : L → Value M) :
    (v.bind f).bind g = v.bind fun x => (f x).bind g := by
  cases v with
  | scalar x => rfl
  | list xs => simp only [bind, List.flatMap_assoc, ← elements_bind]

theorem map_eq_bind (f : K → L) (v : Value K) : v.map f = v.bind fun x => scalar (f x) := by
  cases v with
  | scalar x => rfl
  | list xs => simp [map, bind, List.map_eq_flatMap]

theorem combine_eq_bind (f : K → K → L) (v w : Value K) :
    v.combine f w = v.bind fun x => w.bind fun y => scalar (f x y) := by
  simp only [← map_eq_bind]
  cases v <;> cases w <;> simp [combine, bind, map]

/-- At most one number, in a list or not. -/
inductive Single : Value K → Prop
  | scalar (x : K) : Single (scalar x)
  | nil : Single (list [])
  | singleton (x : K) : Single (list [x])

theorem Single.bind {v : Value K} {f : K → Value L} (hv : v.Single) (hf : ∀ x, (f x).Single) :
    (v.bind f).Single := by
  cases hv with
  | scalar x => exact hf x
  | nil => exact .nil
  | singleton x =>
    have hh := hf x
    cases hfx : f x with
    | scalar y => simpa [Value.bind, hfx] using Single.singleton y
    | list ys => simpa [Value.bind, hfx] using hh

theorem Single.combine {f : K → K → L} {v w : Value K} (hv : v.Single) (hw : w.Single) :
    (v.combine f w).Single := by
  rw [combine_eq_bind]
  exact hv.bind fun x => hw.bind fun y => .scalar _

theorem Single.bind_comm {v w : Value K} (hv : v.Single) (f : K → K → Value L) :
    (v.bind fun x => w.bind (f x)) = w.bind fun y => v.bind fun x => f x y := by
  cases hv with
  | scalar x => rfl
  | nil => cases w <;> simp [Value.bind]
  | singleton x => cases w <;> simp [Value.bind]

theorem Single.bind_self {v : Value K} (hv : v.Single) (f : K → K → Value L) :
    (v.bind fun x => v.bind (f x)) = v.bind fun x => f x x := by
  cases hv with
  | scalar x => rfl
  | nil => rfl
  | singleton x => simp [Value.bind]

end Value

namespace ExactNumber

/-- The second number is the first, if that is defined. -/
def Below (x y : ExactNumber) : Prop := ∀ a, x.value? = some a → y.value? = some a

theorem Below.trans {x y z : ExactNumber} (h : Below x y) (h' : Below y z) : Below x z :=
  fun a ha => h' a (h a ha)

theorem Below.eq {x y : ExactNumber} {a : ℂ} (h : Below x y) (hx : x.value? = some a) : y = x :=
  eq_of_value? (h a hx) hx

theorem Below.apply {o : Operator} {x x' y y' : ExactNumber} (hx : Below x x') (hy : Below y y')
    (hpow : o = .pow → ∃ b, y.value? = some b) : Below (o.apply x y) (o.apply x' y') := by
  intro c hc
  obtain ⟨a, b, ha, hb, hop⟩ := computes_of_value?_apply hc hpow
  exact value?_apply (hx a ha) (hy b hb) hop

end ExactNumber

namespace Value

variable {u v w v' w' : Value ExactNumber}

def Defined (v : Value ExactNumber) : Prop := ∀ x ∈ v.elements, ∃ a, x.value? = some a

theorem defined_of_map {as : List ℂ} (h : v.elements.map Number.value? = as.map some) :
    v.Defined := by
  intro x hx
  have hh : x.value? ∈ v.elements.map Number.value? := List.mem_map_of_mem hx
  rw [h] at hh
  obtain ⟨a, -, ha⟩ := List.mem_map.1 hh
  exact ⟨a, ha.symm⟩

/-- The same shape, with the same number wherever the first value has a defined one. -/
inductive Refines : Value ExactNumber → Value ExactNumber → Prop
  | scalar {x y : ExactNumber} (h : Below x y) : Refines (scalar x) (scalar y)
  | list {xs ys : List ExactNumber} (h : List.Forall₂ Below xs ys) : Refines (list xs) (list ys)

/-- Every defined number of the first value is one of the second. -/
def Covers (v w : Value ExactNumber) : Prop :=
  ∀ x ∈ v.elements, (∃ a, x.value? = some a) → x ∈ w.elements

theorem Refines.elements (h : Refines v w) : List.Forall₂ Below v.elements w.elements := by
  cases h with
  | scalar h => exact .cons h .nil
  | list h => exact h

theorem Refines.refl (v : Value ExactNumber) : Refines v v := by
  cases v with
  | scalar x => exact .scalar fun _ => id
  | list xs => exact .list (List.forall₂_same.2 fun _ _ _ => id)

theorem Refines.trans (h : Refines u v) (h' : Refines v w) : Refines u w := by
  cases h with
  | scalar h =>
    cases h' with
    | scalar h' => exact .scalar (h.trans h')
  | list h =>
    cases h' with
    | @list _ zs h' =>
      refine .list ?_
      induction h generalizing zs with
      | nil => exact h'
      | cons hd _ ih =>
        cases h' with
        | cons hd' tl' => exact .cons (hd.trans hd') (ih tl')

theorem Refines.bind (v : Value ExactNumber) {f g : ExactNumber → Value ExactNumber}
    (h : ∀ x, Refines (f x) (g x)) : Refines (v.bind f) (v.bind g) := by
  cases v with
  | scalar x => exact h x
  | list xs =>
    refine .list (List.rel_flatMap (List.forall₂_same.2 fun x _ => Eq.refl x) ?_)
    rintro x _ rfl
    exact (h x).elements

theorem Refines.apply {o : Operator} (hpow : o = .pow → w.Defined) (hv : Refines v v')
    (hw : Refines w w') : Refines (o.combine v w) (o.combine v' w') := by
  have hrow {x x' : ExactNumber} (hx : Below x x') :
      Refines (w.map (o.apply x)) (w'.map (o.apply x')) := by
    cases hw with
    | scalar hy => exact .scalar (hx.apply hy fun ho => hpow ho _ List.mem_cons_self)
    | @list ys _ hys =>
      have hh : List.Forall₂ (fun y y' => y ∈ ys ∧ Below y y') ys _ :=
        (List.forall₂_and_left _ _).2 ⟨fun _ => id, hys⟩
      exact .list (List.rel_map (fun y y' hy => hx.apply hy.2 fun ho => hpow ho y hy.1) hh)
  have hcombine (v w : Value ExactNumber) :
      o.combine v w = v.bind fun x => w.map (o.apply x) := by
    simp only [Operator.combine, combine_eq_bind, map_eq_bind]
  rw [hcombine, hcombine]
  cases hv with
  | scalar hx => exact hrow hx
  | list hxs => exact .list (List.rel_flatMap hxs fun x x' hx => (hrow hx).elements)

theorem Refines.eq (h : Refines v w) (hv : v.Defined) : w = v := by
  cases h with
  | scalar h =>
    obtain ⟨a, ha⟩ := hv _ List.mem_cons_self
    rw [h.eq ha]
  | list h =>
    induction h with
    | nil => rfl
    | cons hd _ ih =>
      obtain ⟨a, ha⟩ := hv _ List.mem_cons_self
      rw [hd.eq ha, list.inj (ih fun x hx => hv x (List.mem_cons_of_mem _ hx))]

theorem Covers.mem (h : Covers v w) (hv : v.Defined) {x : ExactNumber} (hx : x ∈ v.elements) :
    x ∈ w.elements :=
  h x hx (hv x hx)

end Value

open Value

/-- A relation between values before and after a rewriting. `Loose` values may change places with
others and be copied, `Idle` ones may be dropped. -/
structure Comparison where
  Rel : Value ExactNumber → Value ExactNumber → Prop
  Loose : Value ExactNumber → Prop
  Idle : Value ExactNumber → Prop
  refl (v : Value ExactNumber) : Rel v v
  trans {u v w : Value ExactNumber} : Rel u v → Rel v w → Rel u w
  scalar {x y : ExactNumber} : Below x y → Rel (.scalar x) (.scalar y)
  bind (v : Value ExactNumber) {f g : ExactNumber → Value ExactNumber} :
    (∀ x, Rel (f x) (g x)) → Rel (v.bind f) (v.bind g)
  apply {o : Operator} {v v' w w' : Value ExactNumber} :
    (o = .pow → w.Defined) → Rel v v' → Rel w w' → Rel (o.combine v w) (o.combine v' w')
  loose_scalar (x : ExactNumber) : Loose (.scalar x)
  swap {v w : Value ExactNumber} (f : ExactNumber → ExactNumber → Value ExactNumber) :
    Loose v ∨ Loose w →
      Rel (v.bind fun x => w.bind (f x)) (w.bind fun y => v.bind fun x => f x y)
  copy {v : Value ExactNumber} (f : ExactNumber → ExactNumber → Value ExactNumber) :
    Loose v → Rel (v.bind fun x => f x x) (v.bind fun x => v.bind (f x))
  drop {v : Value ExactNumber} (w : Value ExactNumber) : Idle v → Rel (v.bind fun _ => w) w

namespace Comparison

/-- Shape and order are kept where no two lists change places, no list is copied and none is
dropped. -/
def refinement : Comparison where
  Rel := Refines
  Loose := Single
  Idle := IsScalar
  refl := .refl
  trans := .trans
  scalar := .scalar
  bind := .bind
  apply := .apply
  loose_scalar := .scalar
  swap f h := by
    rcases h with hv | hw
    · rw [hv.bind_comm]
      exact .refl _
    · rw [hw.bind_comm fun y x => f x y]
      exact .refl _
  copy f h := by
    rw [h.bind_self]
    exact .refl _
  drop w h := by
    obtain ⟨x, rfl⟩ := isScalar_iff.1 h
    exact .refl w

/-- Every number is kept under all circumstances. -/
def covering : Comparison where
  Rel := Covers
  Loose _ := True
  Idle _ := True
  refl v x hx _ := hx
  trans h h' x hx hd := h' x (h x hx hd) hd
  scalar h z hz hd := by
    obtain rfl := List.mem_singleton.1 hz
    obtain ⟨a, ha⟩ := hd
    exact List.mem_singleton.2 (h.eq ha).symm
  bind v f g h y hy hd := by
    obtain ⟨x, hx, hy⟩ := mem_bind.1 hy
    exact mem_bind.2 ⟨x, hx, h x y hy hd⟩
  apply hpow hv hw z hz hd := by
    obtain ⟨c, hc⟩ := hd
    obtain ⟨x, hx, y, hy, rfl⟩ := mem_combine.1 hz
    obtain ⟨a, b, ha, hb, -⟩ := computes_of_value?_apply hc fun ho => hpow ho y hy
    exact mem_combine.2 ⟨x, hv x hx ⟨a, ha⟩, y, hw y hy ⟨b, hb⟩, rfl⟩
  loose_scalar _ := trivial
  swap f _ z hz _ := by
    obtain ⟨x, hx, hz⟩ := mem_bind.1 hz
    obtain ⟨y, hy, hz⟩ := mem_bind.1 hz
    exact mem_bind.2 ⟨y, hy, mem_bind.2 ⟨x, hx, hz⟩⟩
  copy f _ z hz _ := by
    obtain ⟨x, hx, hz⟩ := mem_bind.1 hz
    exact mem_bind.2 ⟨x, hx, mem_bind.2 ⟨x, hx, hz⟩⟩
  drop w _ z hz _ := by
    obtain ⟨_, _, hz⟩ := mem_bind.1 hz
    exact hz

end Comparison
end ComplexAlgebra
