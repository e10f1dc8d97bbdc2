import ComplexAlgebra.Grammar

/-! The grammar as a relation between token sequences, trees and the tokens left over, without
positions and without the lengths that make the parser end. The parser succeeds exactly along
derivations, so what it reads does not depend on where the tokens stand. -/
namespace ComplexAlgebra
namespace Grammar

variable {K : Type}

/-- The rules of the grammar. The two that continue behind a tree carry that tree. -/
inductive Level (K : Type) where
  | value
  | power
  | exponent
  | product
  | productTail (left : Expr K)
  | addition
  | additionTail (left : Expr K)
  | expression

def Continues (ts : List Token) : Prop := ∃ t rest, ts = t :: rest ∧ t.startsValue = true

theorem startsValue_iff (ts : List PlacedToken) :
    startsValue ts = true ↔ Continues (ts.map (·.token)) := by
  cases ts with
  | nil => simp [startsValue, Continues]
  | cons t rest => simp [startsValue, Continues]

variable [Arithmetic K]

/-- `Derives level ts e rest`: the rule reads the tree `e` from `ts` and leaves `rest`. -/
inductive Derives : Level K → List Token → Expr K → List Token → Prop
  | number (numeral : Decimal) (rest : List Token) :
    Derives .value (.number numeral :: rest) (.number (Arithmetic.ofDecimal numeral)) rest
  | imaginaryUnit (rest : List Token) :
    Derives .value (.imaginaryUnit :: rest) (.number Arithmetic.imaginaryUnit) rest
  | euler (rest : List Token) : Derives .value (.euler :: rest) (.number Arithmetic.euler) rest
  | pi (rest : List Token) : Derives .value (.pi :: rest) (.number Arithmetic.pi) rest
  | letter (name : Char) (rest : List Token) :
    Derives .value (.letter name :: rest) (.var name 1) rest
  | minus {ts rest : List Token} {e : Expr K} (h : Derives .value ts e rest) :
    Derives .value (.minus :: ts) (.op .sub (.number 0) e) rest
  | bracketed {bracket : Bracket} {ts rest : List Token} {e : Expr K}
    (h : Derives .expression ts e (.closing bracket :: rest)) :
    Derives .value (.opening bracket :: ts) e rest
  | base {ts rest : List Token} {e : Expr K} (h : Derives .value ts e rest)
    (hrest : ∀ after, rest ≠ .caret :: after) : Derives .power ts e rest
  | power {ts after rest : List Token} {b e : Expr K} (hb : Derives .value ts b (.caret :: after))
    (he : Derives .exponent after e rest) : Derives .power ts (.op .pow b e) rest
  | exponent {ts rest : List Token} {e : Expr K} (h : Derives .power ts e rest)
    (hrest : ¬ Continues rest) : Derives .exponent ts e rest
  | exponentTimes {ts after rest : List Token} {e e' : Expr K} (h : Derives .power ts e after)
    (hafter : Continues after) (h' : Derives .product after e' rest) :
    Derives .exponent ts (.op .mul e e') rest
  | product {ts after rest : List Token} {e e' : Expr K} (h : Derives .power ts e after)
    (h' : Derives (.productTail e) after e' rest) : Derives .product ts e' rest
  | productEnd {left : Expr K} {rest : List Token} (hrest : ¬ Continues rest)
    (ho : ∀ t after, rest = t :: after → t.multiplicative? = none) :
    Derives (.productTail left) rest left rest
  | factor {left e e' : Expr K} {t : Token} {o : Operator} {ts after rest : List Token}
    (ho : t.multiplicative? = some o) (h : Derives .power ts e after)
    (h' : Derives (.productTail (.op o left e)) after e' rest) :
    Derives (.productTail left) (t :: ts) e' rest
  | productTimes {left e : Expr K} {t : Token} {ts rest : List Token}
    (ho : t.multiplicative? = none) (ht : t.startsValue = true)
    (h : Derives .product (t :: ts) e rest) :
    Derives (.productTail left) (t :: ts) (.op .mul left e) rest
  | addition {ts after rest : List Token} {e e' : Expr K} (h : Derives .product ts e after)
    (h' : Derives (.additionTail e) after e' rest) : Derives .addition ts e' rest
  | additionEnd {left : Expr K} {rest : List Token}
    (ho : ∀ t after, rest = t :: after → t.additive? = none) :
    Derives (.additionTail left) rest left rest
  | summand {left e e' : Expr K} {t : Token} {o : Operator} {ts after rest : List Token}
    (ho : t.additive? = some o) (h : Derives .product ts e after)
    (h' : Derives (.additionTail (.op o left e)) after e' rest) :
    Derives (.additionTail left) (t :: ts) e' rest
  | expression {ts rest : List Token} {e : Expr K} (h : Derives .addition ts e rest)
    (hrest : ¬ Continues rest) : Derives .expression ts e rest
  | expressionTimes {ts after rest : List Token} {e e' : Expr K}
    (h : Derives .addition ts e after) (hafter : Continues after)
    (h' : Derives .expression after e' rest) : Derives .expression ts (.op .mul e e') rest

mutual

theorem derives_value (stop : Nat) (ts : List PlacedToken) {p : Parsed K ts.length}
    (h : value stop ts = .ok p) :
    Derives .value (ts.map (·.token)) p.tree (p.rest.map (·.token)) := by
  match ts, p, h with
  | [], _, h => simp [value] at h
  | ⟨token, position⟩ :: rest, p, h =>
    unfold value at h
    split at h
    · obtain rfl := Except.ok.inj h
      exact .number _ _
    · obtain rfl := Except.ok.inj h
      exact .imaginaryUnit _
    · obtain rfl := Except.ok.inj h
      exact .euler _
    · obtain rfl := Except.ok.inj h
      exact .pi _
    · obtain rfl := Except.ok.inj h
      exact .letter _ _
    · split at h
      · simp at h
      · next q hq =>
        obtain rfl := Except.ok.inj h
        exact .minus (derives_value stop _ hq)
    · split at h
      · simp at h
      · next q hq =>
        have hd := derives_expression stop _ hq
        split at h
        · next t after hrest =>
          split at h
          · next ht =>
            obtain rfl := Except.ok.inj h
            rw [hrest, List.map_cons, ht] at hd
            exact .bracketed hd
          · simp at h
        · simp at h
    all_goals simp at h
termination_by 8 * ts.length

theorem derives_power (stop : Nat) (ts : List PlacedToken) {p : Parsed K ts.length}
    (h : power stop ts = .ok p) :
    Derives .power (ts.map (·.token)) p.tree (p.rest.map (·.token)) := by
  unfold power at h
  split at h
  · simp at h
  · next q hq =>
    have hd := derives_value stop ts hq
    split at h
    · next position after hrest =>
      split at h
      · simp at h
      · next r hr =>
        have hlt := q.lt_of_rest_eq_cons hrest (Nat.le_refl _)
        obtain rfl := Except.ok.inj h
        rw [hrest] at hd
        exact .power hd (derives_exponent stop _ hr)
    · next hrest =>
      obtain rfl := Except.ok.inj h
      refine .base hd fun after heq => ?_
      obtain ⟨t, after', hcons, ht, -⟩ := List.map_eq_cons_iff.1 heq
      obtain ⟨token, position⟩ := t
      obtain rfl : token = .caret := ht
      exact hrest _ _ hcons
termination_by 8 * ts.length + 1

theorem derives_exponent (stop : Nat) (ts : List PlacedToken) {p : Parsed K ts.length}
    (h : exponent stop ts = .ok p) :
    Derives .exponent (ts.map (·.token)) p.tree (p.rest.map (·.token)) := by
  unfold exponent at h
  split at h
  · simp at h
  · next q hq =>
    have hlt := q.rest_lt
    have hd := derives_power stop ts hq
    split at h
    · next hs =>
      split at h
      · simp at h
      · next r hr =>
        obtain rfl := Except.ok.inj h
        exact .exponentTimes hd ((startsValue_iff _).1 hs) (derives_product stop _ hr)
    · next hs =>
      obtain rfl := Except.ok.inj h
      exact .exponent hd (mt (startsValue_iff _).2 hs)
termination_by 8 * ts.length + 2

theorem derives_product (stop : Nat) (ts : List PlacedToken) {p : Parsed K ts.length}
    (h : product stop ts = .ok p) :
    Derives .product (ts.map (·.token)) p.tree (p.rest.map (·.token)) := by
  unfold product at h
  split at h
  · simp at h
  · next q hq =>
    have hlt := q.rest_lt
    split at h
    · simp at h
    · next r hr =>
      obtain rfl := Except.ok.inj h
      exact .product (derives_power stop ts hq) (derives_productTail stop _ _ hr)
termination_by 8 * ts.length + 3

theorem derives_productTail (stop : Nat) (left : Expr K) (ts : List PlacedToken)
    {p : Parsed K (ts.length + 1)} (h : productTail stop left ts = .ok p) :
    Derives (.productTail left) (ts.map (·.token)) p.tree (p.rest.map (·.token)) := by
  match ts, p, h with
  | [], _, h =>
    unfold productTail at h
    obtain rfl := Except.ok.inj h
    exact .productEnd (by simp [Continues]) (by simp)
  | t :: rest, p, h =>
    unfold productTail at h
    split at h
    · next o ho =>
      split at h
      · simp at h
      · next q hq =>
        have hlt := q.rest_lt
        split at h
        · simp at h
        · next r hr =>
          obtain rfl := Except.ok.inj h
          exact .factor ho (derives_power stop rest hq) (derives_productTail stop _ _ hr)
    · next ho =>
      split at h
      · next hs =>
        split at h
        · simp at h
        · next q hq =>
          obtain rfl := Except.ok.inj h
          exact .productTimes ho hs (derives_product stop (t :: rest) hq)
      · next hs =>
        obtain rfl := Except.ok.inj h
        exact .productEnd (mt (startsValue_iff (t :: rest)).2 hs) (by simpa using ho)
termination_by 8 * ts.length + 4

theorem derives_addition (stop : Nat) (ts : List PlacedToken) {p : Parsed K ts.length}
    (h : addition stop ts = .ok p) :
    Derives .addition (ts.map (·.token)) p.tree (p.rest.map (·.token)) := by
  unfold addition at h
  split at h
  · simp at h
  · next q hq =>
    have hlt := q.rest_lt
    split at h
    · simp at h
    · next r hr =>
      obtain rfl := Except.ok.inj h
      exact .addition (derives_product stop ts hq) (derives_additionTail stop _ _ hr)
termination_by 8 * ts.length + 5

theorem derives_additionTail (stop : Nat) (left : Expr K) (ts : List PlacedToken)
    {p : Parsed K (ts.length + 1)} (h : additionTail stop left ts = .ok p) :
    Derives (.additionTail left) (ts.map (·.token)) p.tree (p.rest.map (·.token)) := by
  match ts, p, h with
  | [], _, h =>
    unfold additionTail at h
    obtain rfl := Except.ok.inj h
    exact .additionEnd (by simp)
  | t :: rest, p, h =>
    unfold additionTail at h
    split at h
    · next o ho =>
      split at h
      · simp at h
      · next q hq =>
        have hlt := q.rest_lt
        split at h
        · simp at h
        · next r hr =>
          obtain rfl := Except.ok.inj h
          exact .summand ho (derives_product stop rest hq) (derives_additionTail stop _ _ hr)
    · next ho =>
      obtain rfl := Except.ok.inj h
      exact .additionEnd (by simpa using ho)
termination_by 8 * ts.length + 5

theorem derives_expression (stop : Nat) (ts : List PlacedToken) {p : Parsed K ts.length}
    (h : expression stop ts = .ok p) :
    Derives .expression (ts.map (·.token)) p.tree (p.rest.map (·.token)) := by
  unfold expression at h
  split at h
  · simp at h
  · next q hq =>
    have hlt := q.rest_lt
    have hd := derives_addition stop ts hq
    split at h
    · next hs =>
      split at h
      · simp at h
      · next r hr =>
        obtain rfl := Except.ok.inj h
        exact .expressionTimes hd ((startsValue_iff _).1 hs) (derives_expression stop _ hr)
    · next hs =>
      obtain rfl := Except.ok.inj h
      exact .expression hd (mt (startsValue_iff _).2 hs)
termination_by 8 * ts.length + 6

end

/-- A result of the parser, without positions. -/
def Yields {n : Nat} (r : Except ParseError (Parsed K n)) (e : Expr K) (rest : List Token) : Prop :=
  ∃ p, r = .ok p ∧ p.tree = e ∧ p.rest.map (·.token) = rest

/-- The function of a rule reads a tree from these tokens wherever they stand. -/
def Level.Reads (level : Level K) (ts : List Token) (e : Expr K) (rest : List Token) : Prop :=
  ∀ (stop : Nat) (qs : List PlacedToken), qs.map (·.token) = ts →
    match level with
    | value => Yields (Grammar.value stop qs) e rest
    | power => Yields (Grammar.power stop qs) e rest
    | exponent => Yields (Grammar.exponent stop qs) e rest
    | product => Yields (Grammar.product stop qs) e rest
    | productTail left => Yields (Grammar.productTail stop left qs) e rest
    | addition => Yields (Grammar.addition stop qs) e rest
    | additionTail left => Yields (Grammar.additionTail stop left qs) e rest
    | expression => Yields (Grammar.expression stop qs) e rest

theorem reads_of_derives {level : Level K} {ts rest : List Token} {e : Expr K}
    (h : Derives level ts e rest) : level.Reads ts e rest := by
  induction h with
  | number numeral rest =>
    intro stop qs hqs
    obtain ⟨⟨token, position⟩, after, rfl, rfl, rfl⟩ := List.map_eq_cons_iff.1 hqs
    exact ⟨_, by rw [value], rfl, rfl⟩
  | imaginaryUnit rest =>
    intro stop qs hqs
    obtain ⟨⟨token, position⟩, after, rfl, rfl, rfl⟩ := List.map_eq_cons_iff.1 hqs
    exact ⟨_, by rw [value], rfl, rfl⟩
  | euler rest =>
    intro stop qs hqs
    obtain ⟨⟨token, position⟩, after, rfl, rfl, rfl⟩ := List.map_eq_cons_iff.1 hqs
    exact ⟨_, by rw [value], rfl, rfl⟩
  | pi rest =>
    intro stop qs hqs
    obtain ⟨⟨token, position⟩, after, rfl, rfl, rfl⟩ := List.map_eq_cons_iff.1 hqs
    exact ⟨_, by rw [value], rfl, rfl⟩
  | letter name rest =>
    intro stop qs hqs
    obtain ⟨⟨token, position⟩, after, rfl, rfl, rfl⟩ := List.map_eq_cons_iff.1 hqs
    exact ⟨_, by rw [value], rfl, rfl⟩
  | minus h ih =>
    intro stop qs hqs
    obtain ⟨⟨token, position⟩, after, rfl, rfl, rfl⟩ := List.map_eq_cons_iff.1 hqs
    obtain ⟨q, hq, rfl, rfl⟩ := ih stop after rfl
    simp only [Yields, value, hq]
    exact ⟨_, rfl, rfl, rfl⟩
  | @bracketed bracket ts rest e h ih =>
    intro stop qs hqs
    obtain ⟨⟨token, position⟩, after, rfl, rfl, rfl⟩ := List.map_eq_cons_iff.1 hqs
    obtain ⟨q, hq, rfl, hrest⟩ := ih stop after rfl
    obtain ⟨t, after', hcons, ht, rfl⟩ := List.map_eq_cons_iff.1 hrest
    simp only [Yields, value, hq]
    split
    · next t' after'' heq =>
      obtain ⟨rfl, rfl⟩ := List.cons.inj (hcons.symm.trans heq)
      exact ⟨_, if_pos ht, rfl, rfl⟩
    · next heq => simp [hcons] at heq
  | base h hrest ih =>
    intro stop qs hqs
    obtain ⟨q, hq, rfl, rfl⟩ := ih stop qs hqs
    simp only [Yields, power, hq]
    split
    · next heq => simp [heq] at hrest
    · exact ⟨_, rfl, rfl, rfl⟩
  | power hb he ihb ihe =>
    intro stop qs hqs
    obtain ⟨q, hq, rfl, hrest⟩ := ihb stop qs hqs
    obtain ⟨⟨token, position⟩, after, hcons, rfl, rfl⟩ := List.map_eq_cons_iff.1 hrest
    obtain ⟨r, hr, rfl, rfl⟩ := ihe stop after rfl
    simp only [Yields, power, hq]
    split
    · next position' after' heq =>
      obtain ⟨-, rfl⟩ := List.cons.inj (hcons.symm.trans heq)
      simp only [hr]
      exact ⟨_, rfl, rfl, rfl⟩
    · next hne => exact absurd hcons (hne _ _)
  | exponent h hrest ih =>
    intro stop qs hqs
    obtain ⟨q, hq, rfl, rfl⟩ := ih stop qs hqs
    exact ⟨q, by simp only [exponent, hq, if_neg (mt (startsValue_iff _).1 hrest)], rfl, rfl⟩
  | exponentTimes h hafter h' ih ih' =>
    intro stop qs hqs
    obtain ⟨q, hq, rfl, rfl⟩ := ih stop qs hqs
    obtain ⟨r, hr, rfl, rfl⟩ := ih' stop q.rest rfl
    simp only [Yields, exponent, hq, hr, if_pos ((startsValue_iff _).2 hafter)]
    exact ⟨_, rfl, rfl, rfl⟩
  | product h h' ih ih' =>
    intro stop qs hqs
    obtain ⟨q, hq, rfl, rfl⟩ := ih stop qs hqs
    obtain ⟨r, hr, rfl, rfl⟩ := ih' stop q.rest rfl
    simp only [Yields, product, hq, hr]
    exact ⟨_, rfl, rfl, rfl⟩
  | @productEnd left rest hrest ho =>
    intro stop qs hqs
    cases qs with
    | nil => exact ⟨_, by rw [productTail], rfl, hqs⟩
    | cons t after =>
      have hnone := ho t.token _ hqs.symm
      have hs : t.token.startsValue = false := by
        rw [← hqs] at hrest
        simpa [Continues] using hrest
      exact ⟨_, by rw [productTail, hnone, hs]; rfl, rfl, hqs⟩
  | factor ho h h' ih ih' =>
    intro stop qs hqs
    obtain ⟨t, after, rfl, rfl, rfl⟩ := List.map_eq_cons_iff.1 hqs
    obtain ⟨q, hq, rfl, rfl⟩ := ih stop after rfl
    obtain ⟨r, hr, rfl, rfl⟩ := ih' stop q.rest rfl
    simp only [Yields, productTail, ho, hq, hr]
    exact ⟨_, rfl, rfl, rfl⟩
  | productTimes ho ht h ih =>
    intro stop qs hqs
    obtain ⟨t, after, rfl, rfl, rfl⟩ := List.map_eq_cons_iff.1 hqs
    obtain ⟨q, hq, rfl, rfl⟩ := ih stop (t :: after) rfl
    refine ⟨(q.timesAfter _).widen (Nat.le_succ _), ?_, rfl, rfl⟩
    rw [productTail, ho]
    simp only [if_pos ht, hq]
  | addition h h' ih ih' =>
    intro stop qs hqs
    obtain ⟨q, hq, rfl, rfl⟩ := ih stop qs hqs
    obtain ⟨r, hr, rfl, rfl⟩ := ih' stop q.rest rfl
    simp only [Yields, addition, hq, hr]
    exact ⟨_, rfl, rfl, rfl⟩
  | @additionEnd left rest ho =>
    intro stop qs hqs
    cases qs with
    | nil => exact ⟨_, by rw [additionTail], rfl, hqs⟩
    | cons t after =>
      have hnone := ho t.token _ hqs.symm
      exact ⟨_, by rw [additionTail, hnone], rfl, hqs⟩
  | summand ho h h' ih ih' =>
    intro stop qs hqs
    obtain ⟨t, after, rfl, rfl, rfl⟩ := List.map_eq_cons_iff.1 hqs
    obtain ⟨q, hq, rfl, rfl⟩ := ih stop after rfl
    obtain ⟨r, hr, rfl, rfl⟩ := ih' stop q.rest rfl
    simp only [Yields, additionTail, ho, hq, hr]
    exact ⟨_, rfl, rfl, rfl⟩
  | expression h hrest ih =>
    intro stop qs hqs
    obtain ⟨q, hq, rfl, rfl⟩ := ih stop qs hqs
    refine ⟨q, ?_, rfl, rfl⟩
    rw [expression, hq]
    simp only [if_neg (mt (startsValue_iff _).1 hrest)]
  | expressionTimes h hafter h' ih ih' =>
    intro stop qs hqs
    obtain ⟨q, hq, rfl, rfl⟩ := ih stop qs hqs
    obtain ⟨r, hr, rfl, rfl⟩ := ih' stop q.rest rfl
    refine ⟨(r.timesAfter q.tree).widen (Nat.le_of_lt q.rest_lt), ?_, rfl, rfl⟩
    rw [expression, hq]
    simp only [if_pos ((startsValue_iff _).2 hafter), hr]

theorem parseTokens_eq_ok_iff (stop : Nat) (ts : List PlacedToken) (e : Expr K) :
    parseTokens stop ts = .ok e ↔ Derives .expression (ts.map (·.token)) e [] := by
  constructor
  · intro h
    unfold parseTokens at h
    split at h
    · simp at h
    · next p hp =>
      split at h
      · next hrest =>
        obtain rfl := Except.ok.inj h
        have hd := derives_expression stop ts hp
        rwa [hrest] at hd
      · simp at h
  · intro h
    obtain ⟨p, hp, rfl, hrest⟩ := reads_of_derives h stop ts rfl
    rw [parseTokens, hp]
    simp only [List.map_eq_nil_iff.1 hrest]

end Grammar
end ComplexAlgebra
