import Mathlib.Algebra.BigOperators.Group.List.Basic
import Mathlib.Data.List.Forall2
import ComplexAlgebra.Scope

/-! Evaluation with lists as enumeration of choices. A value with lists in it is the sequence of the
values that the expression has with one number chosen for every occurrence of a leaf, in the
lexicographic order of the choices. -/
namespace ComplexAlgebra

/-- All ways to choose one position in each of several sequences of the given lengths. The position
in the first sequence varies slowest. -/
def positions : List Nat → List (List Nat)
  | [] => [[]]
  | n :: ns => (List.range n).flatMap fun i => (positions ns).map (i :: ·)

theorem mem_positions {p ns : List Nat} :
    p ∈ positions ns ↔ List.Forall₂ (· < ·) p ns := by
  induction ns generalizing p with
  | nil => simp [positions]
  | cons n ns ih =>
    simp only [positions, List.mem_flatMap, List.mem_range, List.mem_map, ih,
      List.forall₂_cons_right_iff]
    constructor
    · rintro ⟨i, hi, q, hq, rfl⟩
      exact ⟨i, q, hi, hq, rfl⟩
    · rintro ⟨i, q, hi, hq, rfl⟩
      exact ⟨i, hi, q, hq, rfl⟩

theorem pairwise_positions (ns : List Nat) :
    (positions ns).Pairwise (List.Lex (· < ·)) := by
  induction ns with
  | nil => exact List.pairwise_singleton _ _
  | cons n ns ih =>
    rw [positions, List.pairwise_flatMap]
    refine ⟨fun i _ => List.pairwise_map.2 (ih.imp .cons), ?_⟩
    refine List.pairwise_lt_range.imp fun hij p hp q hq => ?_
    obtain ⟨p, -, rfl⟩ := List.mem_map.1 hp
    obtain ⟨q, -, rfl⟩ := List.mem_map.1 hq
    exact .rel hij

theorem length_positions (ns : List Nat) : (positions ns).length = ns.prod := by
  induction ns with
  | nil => rfl
  | cons n ns ih => simp [positions, List.length_flatMap, ih]

theorem positions_append (ms ns : List Nat) :
    positions (ms ++ ns) = (positions ms).flatMap fun p => (positions ns).map (p ++ ·) := by
  induction ms with
  | nil => simp [positions]
  | cons m ms ih =>
    simp only [List.cons_append, positions, ih, List.flatMap_assoc, List.map_flatMap,
      List.flatMap_map, List.map_map]
    rfl

variable {K : Type}

theorem forall₂_positions {R : List Nat → K → Prop} {xs : List K}
    (h : ∀ i x, xs[i]? = some x → R [i] x) : List.Forall₂ R (positions [xs.length]) xs := by
  have hpos : positions [xs.length] = (List.range xs.length).map ([·]) := by
    simp [positions, List.map_eq_flatMap]
  rw [hpos, List.forall₂_map_left_iff, List.forall₂_iff_get]
  refine ⟨List.length_range, fun i hi hx => h _ _ ?_⟩
  simp [List.getElem?_eq_getElem hx]

namespace Value

theorem forall₂_combine {v w : Value K} {f : K → K → K} {ps qs : List (List Nat)}
    {R S T : List Nat → K → Prop} (hv : List.Forall₂ R ps v.elements)
    (hw : List.Forall₂ S qs w.elements)
    (hop : ∀ p q x y, R p x → S q y → T (p ++ q) (f x y)) :
    List.Forall₂ T (ps.flatMap fun p => qs.map (p ++ ·)) (v.combine f w).elements := by
  rw [elements_combine]
  refine List.rel_flatMap hv fun p x hpx => ?_
  exact List.rel_map (fun q y hqy => hop p q x y hpx hqy) hw

theorem combine_eq_scalar_iff {L : Type} {f : K → K → L} {v w : Value K} :
    (∃ x, v.combine f w = .scalar x) ↔ (∃ x, v = .scalar x) ∧ ∃ x, w = .scalar x := by
  cases v <;> cases w <;> simp [combine]

end Value

variable [Arithmetic K]

namespace Scope

/-- The values of the leaf occurrences of an expression, from left to right. A variable has the
value bound to it. -/
def leaves (s : Scope K) : Expr K → List (Value K)
  | .constant v => [v]
  | .var name _ => (s.get? name).toList
  | .op _ l r => s.leaves l ++ s.leaves r

/-- `s.Chooses e p d`: the expression `d` is `e` with one number for every leaf occurrence, from
left to right that at the next position of `p` in the value of the leaf. A variable is replaced by
the chosen number times its coefficient. -/
inductive Chooses (s : Scope K) : Expr K → List Nat → Expr K → Prop
  | constant {v : Value K} {i : Nat} {x : K} (h : v.elements[i]? = some x) :
    Chooses s (.constant v) [i] (.number x)
  | var {name : Char} {v : Value K} (c : K) {i : Nat} {x : K} (hv : s.get? name = some v)
    (h : v.elements[i]? = some x) : Chooses s (.var name c) [i] (.number (x * c))
  | op {l r l' r' : Expr K} {p q : List Nat} (o : Operator) (hl : Chooses s l p l')
    (hr : Chooses s r q r') : Chooses s (.op o l r) (p ++ q) (.op o l' r')

/-- The choice of the positions `p` for the leaf occurrences gives the expression this value. -/
def Comes (s : Scope K) (e : Expr K) (p : List Nat) (x : K) : Prop :=
  ∃ d, s.Chooses e p d ∧ empty.evaluate d = .ok (.scalar x)

theorem Comes.op {s : Scope K} {l r : Expr K} {p q : List Nat} {x y : K} (o : Operator)
    (hl : s.Comes l p x) (hr : s.Comes r q y) : s.Comes (.op o l r) (p ++ q) (o.apply x y) := by
  obtain ⟨l', hl', hx⟩ := hl
  obtain ⟨r', hr', hy⟩ := hr
  exact ⟨_, hl'.op o hr', by simp only [evaluate, hx, hy, Operator.combine, Value.combine_scalar]⟩

theorem evaluate_op_eq_ok {s : Scope K} {o : Operator} {l r : Expr K} {v w : Value K}
    (hl : s.evaluate l = .ok v) (hr : s.evaluate r = .ok w) :
    s.evaluate (.op o l r) = .ok (o.combine v w) := by
  simp only [evaluate, hl, hr]

/-- An expression whose variables are bound has a value, a single number only if all leaves are
single numbers, and the numbers of the value are those of the choices in their order. -/
theorem exists_evaluate {s : Scope K} {e : Expr K}
    (h : ∀ name ∈ e.names, ∃ v, s.get? name = some v) :
    ∃ v, s.evaluate e = .ok v ∧
      ((∃ x, v = .scalar x) ↔ ∀ w ∈ s.leaves e, ∃ x, w = .scalar x) ∧
      List.Forall₂ (s.Comes e) (positions ((s.leaves e).map (·.elements.length))) v.elements := by
  induction e with
  | constant v =>
    refine ⟨v, rfl, by simp [leaves], forall₂_positions fun i x hx => ?_⟩
    exact ⟨_, .constant hx, rfl⟩
  | var name c =>
    obtain ⟨v, hv⟩ := h name List.mem_cons_self
    refine ⟨v.map (· * c), by simp only [evaluate, hv], ?_, ?_⟩
    · cases v <;> simp [leaves, hv, Value.map]
    · simp only [leaves, hv, Option.toList_some, List.map_cons, List.map_nil, Value.elements_map,
        List.forall₂_map_right_iff]
      exact forall₂_positions fun i x hx => ⟨_, .var c hv hx, rfl⟩
  | op o l r ihl ihr =>
    obtain ⟨v, hv, hvs, hvp⟩ := ihl fun name hname => h name (List.mem_append_left _ hname)
    obtain ⟨w, hw, hws, hwp⟩ := ihr fun name hname => h name (List.mem_append_right _ hname)
    refine ⟨o.combine v w, evaluate_op_eq_ok hv hw, ?_, ?_⟩
    · rw [Operator.combine, Value.combine_eq_scalar_iff, hvs, hws, leaves, List.forall_mem_append]
    · rw [leaves, List.map_append, positions_append]
      exact Value.forall₂_combine hvp hwp fun p q x y hx hy => hx.op o hy

theorem exists_evaluate_iff {s : Scope K} {e : Expr K} :
    (∃ v, s.evaluate e = .ok v) ↔ ∀ name ∈ e.names, ∃ v, s.get? name = some v := by
  constructor
  · rintro ⟨v, hv⟩
    induction e generalizing v with
    | constant w => exact fun _ h => absurd h List.not_mem_nil
    | var other c =>
      rw [evaluate] at hv
      split at hv
      · next w hw =>
        intro name hname
        rw [List.mem_singleton.1 hname]
        exact ⟨w, hw⟩
      · cases hv
    | op o l r ihl ihr =>
      rw [evaluate] at hv
      split at hv
      · cases hv
      · next x hx =>
        split at hv
        · cases hv
        · next y hy => exact List.forall_mem_append.2 ⟨ihl x hx, ihr y hy⟩
  · intro h
    obtain ⟨v, hv, -⟩ := exists_evaluate h
    exact ⟨v, hv⟩

/-- Where all variables of an expression are bound, its value is a single number exactly if no leaf
is a list, and the numbers of the value are, one after the other, those that the expression has for
each way to choose a position at every leaf occurrence, in lexicographic order. -/
theorem evaluate_enumerates {s : Scope K} {e : Expr K}
    (h : ∀ name ∈ e.names, ∃ v, s.get? name = some v) :
    ∃ v, s.evaluate e = .ok v ∧
      ((∃ x, v = .scalar x) ↔ ∀ w ∈ s.leaves e, ∃ x, w = .scalar x) ∧
      (∃ ps : List (List Nat), ps.Pairwise (List.Lex (· < ·)) ∧
        (∀ p, p ∈ ps ↔ List.Forall₂ (fun i w => i < w.elements.length) p (s.leaves e)) ∧
        List.Forall₂ (fun p x => ∃ d, s.Chooses e p d ∧ empty.evaluate d = .ok (.scalar x))
          ps v.elements) ∧
      v.elements.length = ((s.leaves e).map (·.elements.length)).prod := by
  obtain ⟨v, hv, hscalar, hcomes⟩ := exists_evaluate h
  refine ⟨v, hv, hscalar, ⟨_, pairwise_positions _, fun p => ?_, hcomes⟩, ?_⟩
  · rw [mem_positions, List.forall₂_map_right_iff]
  · rw [← hcomes.length_eq, length_positions]

/-- The two occurrences of `x` in `x * x` choose from `x = [1, 2]` apart from each other. -/
theorem evaluate_enumerates_square :
    ∃ v, ((empty : Scope FloatNumber).bind 'x' (.list [1, Arithmetic.two])).evaluate
        (.op .mul (.var 'x' 1) (.var 'x' 1)) = .ok v ∧
      (¬ ∃ x, v = .scalar x) ∧ v.elements.length = 4 := by
  have h : ∀ name ∈ (Expr.op .mul (.var 'x' 1) (.var 'x' (1 : FloatNumber))).names,
      ∃ v, ((empty : Scope FloatNumber).bind 'x' (.list [1, Arithmetic.two])).get? name =
        some v := by
    intro name hname
    obtain rfl : name = 'x' := by simpa [Expr.names] using hname
    exact ⟨_, rfl⟩
  obtain ⟨v, hv, hscalar, -, hlength⟩ := evaluate_enumerates h
  refine ⟨v, hv, fun hx => ?_, hlength⟩
  obtain ⟨x, hx⟩ := hscalar.1 hx (.list [1, Arithmetic.two]) List.mem_cons_self
  cases hx

end Scope
end ComplexAlgebra
