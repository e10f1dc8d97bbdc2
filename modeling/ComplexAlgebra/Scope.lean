import ComplexAlgebra.Token

/-! The table of bound variables, in the order of their names, and the value of an expression in
it. -/
namespace ComplexAlgebra

structure Scope (K : Type) where
  bindings : List (Char × Value K)
  sorted : bindings.Pairwise fun a b => a.1 < b.1

namespace Scope

variable {K : Type}

def empty : Scope K := ⟨[], .nil⟩

def get? (s : Scope K) (name : Char) : Option (Value K) := s.bindings.lookup name

def contains (s : Scope K) (name : Char) : Bool := (s.get? name).isSome

def size (s : Scope K) : Nat := s.bindings.length

def isEmpty (s : Scope K) : Bool := s.bindings.isEmpty

@[simp] theorem get?_empty (name : Char) : (empty : Scope K).get? name = none := rfl

/-- Puts a binding into its place and replaces one of the same name. -/
def insert (name : Char) (v : Value K) : List (Char × Value K) → List (Char × Value K)
  | [] => [(name, v)]
  | (other, w) :: rest =>
    if name < other then (name, v) :: (other, w) :: rest
    else if name = other then (name, v) :: rest
    else (other, w) :: insert name v rest

theorem mem_insert {name : Char} {v : Value K} {b : Char × Value K}
    {bs : List (Char × Value K)} (h : b ∈ insert name v bs) : b = (name, v) ∨ b ∈ bs := by
  induction bs with
  | nil => simpa [insert] using h
  | cons hd tl ih =>
    rw [insert] at h
    split at h
    · simpa using h
    · split at h
      · rcases List.mem_cons.1 h with h | h
        · exact .inl h
        · exact .inr (List.mem_cons_of_mem _ h)
      · rcases List.mem_cons.1 h with h | h
        · exact .inr (h ▸ List.mem_cons_self)
        · exact (ih h).imp_right (List.mem_cons_of_mem _)

theorem pairwise_insert (name : Char) (v : Value K) {bs : List (Char × Value K)}
    (h : bs.Pairwise fun a b => a.1 < b.1) :
    (insert name v bs).Pairwise fun a b => a.1 < b.1 := by
  induction bs with
  | nil => simp [insert]
  | cons hd tl ih =>
    have hhd := (List.pairwise_cons.1 h).1
    have htl := (List.pairwise_cons.1 h).2
    rw [insert]
    split
    next hlt =>
      refine List.pairwise_cons.2 ⟨fun b hb => ?_, h⟩
      rcases List.mem_cons.1 hb with hb | hb
      · exact hb ▸ hlt
      · exact Char.lt_trans hlt (hhd b hb)
    next hnlt =>
      split
      next heq => exact List.pairwise_cons.2 ⟨fun b hb => heq ▸ hhd b hb, htl⟩
      next hne =>
        refine List.pairwise_cons.2 ⟨fun b hb => ?_, ih htl⟩
        rcases mem_insert hb with rfl | hb
        · exact Classical.byContradiction fun hle =>
            hne (Char.le_antisymm (Char.not_lt.1 hle) (Char.not_lt.1 hnlt))
        · exact hhd b hb

def bind (s : Scope K) (name : Char) (v : Value K) : Scope K :=
  ⟨insert name v s.bindings, pairwise_insert name v s.sorted⟩

def unbind (s : Scope K) (name : Char) : Scope K :=
  ⟨s.bindings.filter (·.1 != name), s.sorted.filter _⟩

theorem lookup_cons (name other : Char) (v : Value K) (bs : List (Char × Value K)) :
    ((name, v) :: bs).lookup other = if other = name then some v else bs.lookup other := by
  by_cases h : other = name
  · simp [h]
  · simp [List.lookup_cons, h, beq_false_of_ne h]

theorem lookup_insert (name other : Char) (v : Value K) (bs : List (Char × Value K)) :
    (insert name v bs).lookup other = if other = name then some v else bs.lookup other := by
  induction bs with
  | nil => exact lookup_cons name other v []
  | cons hd tl ih =>
    rw [insert]
    split
    · exact lookup_cons name other v _
    · split
      next heq => rw [lookup_cons, lookup_cons hd.1, heq]; split <;> rfl
      next hne => rw [lookup_cons hd.1, lookup_cons hd.1, ih]; grind

@[simp] theorem get?_bind (s : Scope K) (name other : Char) (v : Value K) :
    (s.bind name v).get? other = if other = name then some v else s.get? other :=
  lookup_insert name other v s.bindings

/-- The scope that a list of bindings leaves, later ones replacing earlier ones. -/
def ofList (bindings : List (Char × Value K)) : Scope K :=
  bindings.foldl (fun s b => s.bind b.1 b.2) empty

end Scope

/-! Why a line has no result. -/

/-- Why a text with an equals sign is not an equation in one unknown. -/
inductive EquationFault where
  | bothSides
  | neitherSide
  /-- Several equals signs, and how many. -/
  | equalsSigns (count : Nat)
deriving DecidableEq

/-- Where the isolation of an unknown stops. -/
inductive Obstacle (K : Type) where
  /-- The side that ought to be known has not come down to a value. -/
  | notKnown (side : Expr K)
  /-- Both operands of an operator contain the unknown. -/
  | bothOperands (o : Operator)
  | cancels

inductive RuntimeError (K : Type) where
  | unboundVariable (name : Char)
  | invalidEquation (fault : EquationFault)
  | unresolvable (obstacle : Obstacle K)

inductive Error (K : Type) where
  | parse (cause : ParseError)
  | runtime (cause : RuntimeError K)

/-- An error in a script, with the number of its line, counted from one. -/
structure ScriptError (K : Type) where
  line : Nat
  cause : Error K

namespace Scope

variable {K : Type} [Arithmetic K]

/-- A variable has the value bound to it times its coefficient; an operator pairs all numbers of
its operands. The leftmost unbound variable is the error. -/
def evaluate (s : Scope K) : Expr K → Except (RuntimeError K) (Value K)
  | .constant v => .ok v
  | .var name coefficient =>
    match s.get? name with
    | some v => .ok (v.map (· * coefficient))
    | none => .error (.unboundVariable name)
  | .op o left right =>
    match s.evaluate left with
    | .error e => .error e
    | .ok v =>
      match s.evaluate right with
      | .error e => .error e
      | .ok w => .ok (o.combine v w)

end Scope
end ComplexAlgebra
