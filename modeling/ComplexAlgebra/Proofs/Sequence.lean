import ComplexAlgebra.Grammar
import ComplexAlgebra.Proofs.Derivation

/-! Expressions as sequences of atoms, apart from the rules of the parser. Each atom is joined to
the one before it by an operator or by standing right behind it. The tree of a sequence is said by
where it is divided: at its last sum, else at its first juxtaposition, else at its last explicit
product or quotient, else at its first power. -/
namespace ComplexAlgebra

/-- The operator that a token between two atoms stands for. -/
def Token.operator? : Token → Option Operator
  | plus => some .add
  | minus => some .sub
  | star => some .mul
  | slash => some .div
  | caret => some .pow
  | _ => none

namespace Grammar

/-- What joins an atom to the one before it. -/
inductive Connector where
  | written (o : Operator)
  | juxtaposed

def Connector.operator : Connector → Operator
  | written o => o
  | juxtaposed => .mul

/-- The tree of an atom, with what joins it to the one before it. -/
structure Joined (K : Type) where
  connector : Connector
  atom : Expr K

namespace Joined

variable {K : Type}

def isAdditive : Joined K → Bool
  | ⟨.written .add, _⟩ | ⟨.written .sub, _⟩ => true
  | _ => false

def isMultiplicative : Joined K → Bool
  | ⟨.written .mul, _⟩ | ⟨.written .div, _⟩ => true
  | _ => false

def isJuxtaposed : Joined K → Bool
  | ⟨.juxtaposed, _⟩ => true
  | _ => false

def IsFactor (j : Joined K) : Prop := j.isAdditive = false ∧ j.isJuxtaposed = false

def IsExponent (j : Joined K) : Prop := j.connector = .written .pow

theorem isFactor_of_multiplicative {j : Joined K} (h : j.isMultiplicative = true) :
    j.IsFactor := by
  rcases j with ⟨o | _, e⟩
  · cases o with
    | mul => exact ⟨rfl, rfl⟩
    | div => exact ⟨rfl, rfl⟩
    | _ => cases h
  · cases h

theorem IsExponent.isFactor {j : Joined K} (h : j.IsExponent) : j.IsFactor := by
  obtain ⟨c, e⟩ := j
  cases h
  exact ⟨rfl, rfl⟩

theorem IsExponent.isMultiplicative {j : Joined K} (h : j.IsExponent) :
    j.isMultiplicative = false := by
  obtain ⟨c, e⟩ := j
  cases h
  rfl

theorem IsFactor.isExponent {j : Joined K} (h : j.IsFactor) (hm : j.isMultiplicative = false) :
    j.IsExponent := by
  obtain ⟨ha, hx⟩ := h
  rcases j with ⟨o | _, e⟩
  · cases o with
    | add => cases ha
    | sub => cases ha
    | mul => cases hm
    | div => cases hm
    | pow => rfl
  · cases hx

end Joined

variable {α : Type}

/-- The last entry of this kind, with the entries before and behind it. -/
def splitLast? (p : α → Bool) : List α → Option (List α × α × List α)
  | [] => none
  | x :: xs =>
    match splitLast? p xs with
    | some (before, y, after) => some (x :: before, y, after)
    | none => if p x then some ([], x, xs) else none

def splitFirst? (p : α → Bool) : List α → Option (List α × α × List α)
  | [] => none
  | x :: xs =>
    if p x then some ([], x, xs)
    else (splitFirst? p xs).map fun (before, y, after) => (x :: before, y, after)

theorem splitLast?_eq_none_iff {p : α → Bool} {xs : List α} :
    splitLast? p xs = none ↔ ∀ x ∈ xs, p x = false := by
  induction xs with
  | nil => simp [splitLast?]
  | cons x xs ih =>
    rw [splitLast?, List.forall_mem_cons, ← ih]
    cases hxs : splitLast? p xs with
    | none => simp
    | some t => simp

theorem splitLast?_append {p : α → Bool} {before after : List α} {x : α} (hx : p x = true)
    (hafter : ∀ y ∈ after, p y = false) :
    splitLast? p (before ++ x :: after) = some (before, x, after) := by
  induction before with
  | nil => rw [List.nil_append, splitLast?, splitLast?_eq_none_iff.2 hafter, if_pos hx]
  | cons y before ih => rw [List.cons_append, splitLast?, ih]

theorem eq_of_splitLast? {p : α → Bool} {xs before after : List α} {x : α}
    (h : splitLast? p xs = some (before, x, after)) :
    xs = before ++ x :: after ∧ p x = true ∧ ∀ y ∈ after, p y = false := by
  induction xs generalizing before with
  | nil => cases h
  | cons y xs ih =>
    rw [splitLast?] at h
    split at h
    · next hxs =>
      cases h
      obtain ⟨rfl, hx, hafter⟩ := ih hxs
      exact ⟨rfl, hx, hafter⟩
    · next hxs =>
      split at h
      · next hy =>
        cases h
        exact ⟨rfl, hy, splitLast?_eq_none_iff.1 hxs⟩
      · cases h

theorem splitFirst?_append {p : α → Bool} {before after : List α} {x : α} (hx : p x = true)
    (hbefore : ∀ y ∈ before, p y = false) :
    splitFirst? p (before ++ x :: after) = some (before, x, after) := by
  induction before with
  | nil => rw [List.nil_append, splitFirst?, if_pos hx]
  | cons y before ih =>
    obtain ⟨hy, hbefore⟩ := List.forall_mem_cons.1 hbefore
    rw [List.cons_append, splitFirst?, hy, ih hbefore]
    rfl

theorem splitFirst?_eq_none_iff {p : α → Bool} {xs : List α} :
    splitFirst? p xs = none ↔ ∀ x ∈ xs, p x = false := by
  induction xs with
  | nil => simp [splitFirst?]
  | cons x xs ih =>
    rw [splitFirst?, List.forall_mem_cons, ← ih]
    cases p x <;> simp

theorem eq_of_splitFirst? {p : α → Bool} {xs before after : List α} {x : α}
    (h : splitFirst? p xs = some (before, x, after)) :
    xs = before ++ x :: after ∧ p x = true ∧ ∀ y ∈ before, p y = false := by
  induction xs generalizing before with
  | nil => cases h
  | cons y xs ih =>
    rw [splitFirst?] at h
    split at h
    · next hy =>
      cases h
      exact ⟨rfl, hy, nofun⟩
    · next hy =>
      obtain ⟨⟨before', x', after'⟩, hxs, heq⟩ := Option.map_eq_some_iff.1 h
      cases heq
      obtain ⟨rfl, hx, hbefore⟩ := ih hxs
      exact ⟨rfl, hx, List.forall_mem_cons.2 ⟨Bool.eq_false_iff.2 hy, hbefore⟩⟩

theorem length_of_splitLast? {p : α → Bool} {xs before after : List α} {x : α}
    (h : splitLast? p xs = some (before, x, after)) :
    before.length + after.length + 1 = xs.length := by
  rw [(eq_of_splitLast? h).1, List.length_append, List.length_cons, Nat.add_assoc]

theorem length_of_splitFirst? {p : α → Bool} {xs before after : List α} {x : α}
    (h : splitFirst? p xs = some (before, x, after)) :
    before.length + after.length + 1 = xs.length := by
  rw [(eq_of_splitFirst? h).1, List.length_append, List.length_cons, Nat.add_assoc]

variable {K : Type}

/-- Powers group to the right. -/
def powers (first : Expr K) : List (Joined K) → Expr K
  | [] => first
  | j :: js => .op .pow first (powers j.atom js)

/-- The tree of a sequence of atoms. A juxtaposition behind an exponent multiplies that exponent
alone. -/
def tree (first : Expr K) (js : List (Joined K)) : Expr K :=
  match _hsum : splitLast? Joined.isAdditive js with
  | some (before, j, after) => .op j.connector.operator (tree first before) (tree j.atom after)
  | none =>
    match _hjuxta : splitFirst? Joined.isJuxtaposed js with
    | some (before, j, after) =>
      match _hlast : before.getLast? with
      | some ⟨.written .pow, e⟩ =>
        tree first (before.dropLast ++ [⟨.written .pow, .op .mul e (tree j.atom after)⟩])
      | _ => .op .mul (tree first before) (tree j.atom after)
    | none =>
      match _hproduct : splitLast? Joined.isMultiplicative js with
      | some (before, j, after) => .op j.connector.operator (tree first before) (tree j.atom after)
      | none => powers first js
termination_by js.length
decreasing_by
  · have := length_of_splitLast? _hsum; omega
  · have := length_of_splitLast? _hsum; omega
  · have := length_of_splitFirst? _hjuxta; omega
  · have := length_of_splitFirst? _hjuxta
    obtain ⟨start, rfl⟩ := List.getLast?_eq_some_iff.1 _hlast
    simp only [List.length_append, List.length_singleton, List.dropLast_concat] at this ⊢
    omega
  · have := length_of_splitFirst? _hjuxta; omega
  · have := length_of_splitFirst? _hjuxta; omega
  · have := length_of_splitLast? _hproduct; omega
  · have := length_of_splitLast? _hproduct; omega

section Tree

variable {first e : Expr K} {j : Joined K} {before after js : List (Joined K)}

theorem tree_sum (hj : j.isAdditive = true) (hafter : ∀ i ∈ after, i.isAdditive = false) :
    tree first (before ++ j :: after) =
      .op j.connector.operator (tree first before) (tree j.atom after) := by
  rw [tree]
  split
  · next h =>
    cases (splitLast?_append hj hafter).symm.trans h
    rfl
  · next h => cases (splitLast?_append hj hafter).symm.trans h

/-- The first juxtaposition behind an exponent multiplies the exponent. -/
theorem tree_exponent (hbefore : ∀ i ∈ before, i.IsFactor) (hj : j.isJuxtaposed = true)
    (hjs : ∀ i ∈ j :: after, i.isAdditive = false) :
    tree first (before ++ ⟨.written .pow, e⟩ :: j :: after) =
      tree first (before ++ [⟨.written .pow, .op .mul e (tree j.atom after)⟩]) := by
  have hpow (i : Joined K) (hi : i ∈ before ++ [⟨.written .pow, e⟩]) : i.IsFactor := by
    rcases List.mem_append.1 hi with hi | hi
    · exact hbefore i hi
    · cases List.mem_singleton.1 hi
      exact ⟨rfl, rfl⟩
  have hnone : splitLast? Joined.isAdditive
      ((before ++ [⟨.written .pow, e⟩]) ++ j :: after) = none :=
    splitLast?_eq_none_iff.2 (List.forall_mem_append.2 ⟨fun i hi => (hpow i hi).1, hjs⟩)
  have hfirst : splitFirst? Joined.isJuxtaposed ((before ++ [⟨.written .pow, e⟩]) ++ j :: after) =
      some (before ++ [⟨.written .pow, e⟩], j, after) :=
    splitFirst?_append hj fun i hi => (hpow i hi).2
  rw [List.append_cons, tree]
  split
  · next h => cases hnone.symm.trans h
  · split
    · next h =>
      cases hfirst.symm.trans h
      split
      · next e' hlast =>
        cases List.getLast?_concat.symm.trans hlast
        rw [List.dropLast_concat]
      · next hlast => exact absurd List.getLast?_concat (hlast e)
    · next h => cases hfirst.symm.trans h

theorem tree_juxtaposed (hbefore : ∀ i ∈ before, i.IsFactor) (hj : j.isJuxtaposed = true)
    (hjs : ∀ i ∈ j :: after, i.isAdditive = false)
    (hlast : ∀ e, before.getLast? ≠ some ⟨.written .pow, e⟩) :
    tree first (before ++ j :: after) = .op .mul (tree first before) (tree j.atom after) := by
  have hnone : splitLast? Joined.isAdditive (before ++ j :: after) = none :=
    splitLast?_eq_none_iff.2 (List.forall_mem_append.2 ⟨fun i hi => (hbefore i hi).1, hjs⟩)
  have hfirst : splitFirst? Joined.isJuxtaposed (before ++ j :: after) = some (before, j, after) :=
    splitFirst?_append hj fun i hi => (hbefore i hi).2
  rw [tree]
  split
  · next h => cases hnone.symm.trans h
  · split
    · next h =>
      cases hfirst.symm.trans h
      split
      · next hpow => exact absurd hpow (hlast _)
      · rfl
    · next h => cases hfirst.symm.trans h

theorem tree_product (hbefore : ∀ i ∈ before, i.IsFactor) (hj : j.isMultiplicative = true)
    (hafter : ∀ i ∈ after, i.IsExponent) :
    tree first (before ++ j :: after) =
      .op j.connector.operator (tree first before) (tree j.atom after) := by
  have hall : ∀ i ∈ before ++ j :: after, i.IsFactor :=
    List.forall_mem_append.2 ⟨hbefore, List.forall_mem_cons.2
      ⟨Joined.isFactor_of_multiplicative hj, fun i hi => (hafter i hi).isFactor⟩⟩
  have hlast : splitLast? Joined.isMultiplicative (before ++ j :: after) =
      some (before, j, after) :=
    splitLast?_append hj fun i hi => (hafter i hi).isMultiplicative
  rw [tree]
  split
  · next h => cases (splitLast?_eq_none_iff.2 fun i hi => (hall i hi).1).symm.trans h
  · split
    · next h => cases (splitFirst?_eq_none_iff.2 fun i hi => (hall i hi).2).symm.trans h
    · split
      · next h =>
        cases hlast.symm.trans h
        rfl
      · next h => cases hlast.symm.trans h

theorem tree_powers (hjs : ∀ i ∈ js, i.IsExponent) : tree first js = powers first js := by
  rw [tree]
  split
  · next h => cases (splitLast?_eq_none_iff.2 fun i hi => (hjs i hi).isFactor.1).symm.trans h
  · split
    · next h => cases (splitFirst?_eq_none_iff.2 fun i hi => (hjs i hi).isFactor.2).symm.trans h
    · split
      · next h =>
        cases (splitLast?_eq_none_iff.2 fun i hi => (hjs i hi).isMultiplicative).symm.trans h
      · rfl

theorem tree_nil : tree first [] = first := tree_powers (List.forall_mem_nil _)

end Tree

/-- What tokens are read as: the tree of an atom, or the trees of a sequence of atoms. -/
inductive Phrase (K : Type) where
  | atom (e : Expr K)
  | sequence (first : Expr K) (js : List (Joined K))

/-- The reading of tokens as a sequence of atoms. A minus between atoms is binary, so an atom that
is juxtaposed begins with no minus. -/
inductive Spans [Arithmetic K] : Phrase K → List Token → Prop
  | number (numeral : Decimal) :
    Spans (.atom (.number (Arithmetic.ofDecimal numeral))) [.number numeral]
  | imaginaryUnit : Spans (.atom (.number Arithmetic.imaginaryUnit)) [.imaginaryUnit]
  | euler : Spans (.atom (.number Arithmetic.euler)) [.euler]
  | pi : Spans (.atom (.number Arithmetic.pi)) [.pi]
  | letter (name : Char) : Spans (.atom (.var name 1)) [.letter name]
  | minus {e : Expr K} {ts : List Token} (h : Spans (.atom e) ts) :
    Spans (.atom (.op .sub (.number 0) e)) (.minus :: ts)
  | bracketed {first : Expr K} {js : List (Joined K)} {ts : List Token} (bracket : Bracket)
    (h : Spans (.sequence first js) ts) :
    Spans (.atom (tree first js)) (.opening bracket :: (ts ++ [.closing bracket]))
  | single {e : Expr K} {ts : List Token} (h : Spans (.atom e) ts) : Spans (.sequence e []) ts
  | written {e first : Expr K} {js : List (Joined K)} {ts us : List Token} {t : Token}
    {o : Operator} (h : Spans (.atom e) ts) (ho : t.operator? = some o)
    (h' : Spans (.sequence first js) us) :
    Spans (.sequence e (⟨.written o, first⟩ :: js)) (ts ++ t :: us)
  | juxtaposed {e first : Expr K} {js : List (Joined K)} {ts us : List Token}
    (h : Spans (.atom e) ts) (hus : Continues us) (h' : Spans (.sequence first js) us) :
    Spans (.sequence e (⟨.juxtaposed, first⟩ :: js)) (ts ++ us)

inductive Nonterminal where
  | sentence
  | atom
  | primary

/-- The language of expressions: atoms with at most one operator between two of them, where an atom
is a primary behind any number of minuses. -/
inductive Generates : Nonterminal → List Token → Prop
  | number (numeral : Decimal) : Generates .primary [.number numeral]
  | imaginaryUnit : Generates .primary [.imaginaryUnit]
  | euler : Generates .primary [.euler]
  | pi : Generates .primary [.pi]
  | letter (name : Char) : Generates .primary [.letter name]
  | bracketed {ts : List Token} (bracket : Bracket) (h : Generates .sentence ts) :
    Generates .primary (.opening bracket :: (ts ++ [.closing bracket]))
  | primary {ts : List Token} (h : Generates .primary ts) : Generates .atom ts
  | minus {ts : List Token} (h : Generates .atom ts) : Generates .atom (.minus :: ts)
  | single {ts : List Token} (h : Generates .atom ts) : Generates .sentence ts
  | joined {ts us : List Token} (h : Generates .atom ts) (h' : Generates .sentence us) :
    Generates .sentence (ts ++ us)
  | connected {ts us : List Token} {t : Token} (h : Generates .atom ts)
    (ht : t.operator? ≠ none) (h' : Generates .sentence us) :
    Generates .sentence (ts ++ t :: us)

end Grammar
end ComplexAlgebra
