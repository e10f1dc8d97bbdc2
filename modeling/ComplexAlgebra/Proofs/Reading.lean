import ComplexAlgebra.Proofs.Sequence

/-! What the parser reads. It accepts exactly the sequences of atoms, and the tree it returns is the
tree of the sequence. The tokens of a sequence derive its tree rule by rule: exponents first, from
the right, then products, from the left, with a juxtaposition at their end, then sums. -/
namespace ComplexAlgebra

namespace Token

variable {t : Token} {o : Operator}

theorem startsValue_of_operator? (h : t.operator? = some o) : t.startsValue = false := by
  cases t <;> first | rfl | cases h

theorem operator?_of_additive? (h : t.additive? = some o) : t.operator? = some o := by
  cases t <;> first | exact h | cases h

theorem operator?_of_multiplicative? (h : t.multiplicative? = some o) : t.operator? = some o := by
  cases t <;> first | exact h | cases h

theorem multiplicative?_of_startsValue (h : t.startsValue = true) : t.multiplicative? = none := by
  cases t <;> first | rfl | cases h

theorem eq_caret_of_operator? (h : t.operator? = some .pow) : t = .caret := by
  cases t <;> first | rfl | cases h

end Token

namespace Grammar

theorem not_continues_cons {t : Token} (h : t.startsValue = false) (ts : List Token) :
    ¬ Continues (t :: ts) := by
  rintro ⟨_, _, heq, hs⟩
  cases heq
  cases h.symm.trans hs

theorem Continues.ne_caret {ts : List Token} (h : Continues ts) (after : List Token) :
    ts ≠ .caret :: after := by
  rintro rfl
  exact not_continues_cons rfl after h

theorem Continues.append {ts : List Token} (h : Continues ts) (us : List Token) :
    Continues (ts ++ us) := by
  obtain ⟨t, rest, rfl, ht⟩ := h
  exact ⟨t, rest ++ us, rfl, ht⟩

theorem Continues.of_append {ts us : List Token} (h : Continues (ts ++ us)) (hts : ts ≠ []) :
    Continues ts := by
  obtain ⟨t, ts, rfl⟩ := List.exists_cons_of_ne_nil hts
  obtain ⟨_, _, heq, ht⟩ := h
  cases heq
  exact ⟨t, ts, rfl, ht⟩

variable {K : Type} [Arithmetic K]

/-- Tokens of values, joined to a sequence. -/
inductive Spelled : List Token → Expr K → List (Joined K) → Prop
  | single {ts : List Token} {e : Expr K} (h : ∀ rest, Derives .value (ts ++ rest) e rest) :
    Spelled ts e []
  | written {ts us : List Token} {t : Token} {e first : Expr K} {js : List (Joined K)}
    {o : Operator} (h : ∀ rest, Derives .value (ts ++ rest) e rest) (ho : t.operator? = some o)
    (h' : Spelled us first js) : Spelled (ts ++ t :: us) e (⟨.written o, first⟩ :: js)
  | juxtaposed {ts us : List Token} {e first : Expr K} {js : List (Joined K)}
    (h : ∀ rest, Derives .value (ts ++ rest) e rest) (hus : Continues us)
    (h' : Spelled us first js) : Spelled (ts ++ us) e (⟨.juxtaposed, first⟩ :: js)

variable {ts us vs rest : List Token} {t : Token} {first e x left : Expr K} {j : Joined K}
  {js before after : List (Joined K)} {o : Operator}

theorem Spelled.ne_nil (h : Spelled ts first js) : ts ≠ [] := by
  cases h with
  | single h =>
    rintro rfl
    cases h []
  | written => simp
  | juxtaposed h =>
    intro hnil
    obtain ⟨rfl, rfl⟩ := List.append_eq_nil_iff.1 hnil
    cases h []

theorem Spelled.split_written (h : Spelled ts first (before ++ ⟨.written o, e⟩ :: after)) :
    ∃ us t vs, ts = us ++ t :: vs ∧ t.operator? = some o ∧ Spelled us first before ∧
      Spelled vs e after := by
  induction before generalizing ts first with
  | nil =>
    cases h with
    | written h ho h' => exact ⟨_, _, _, rfl, ho, .single h, h'⟩
  | cons j before ih =>
    cases h with
    | written h ho h' =>
      obtain ⟨us, t, vs, rfl, ht, hus, hvs⟩ := ih h'
      exact ⟨_, t, vs, (List.append_assoc _ (_ :: us) _).symm, ht, .written h ho hus, hvs⟩
    | juxtaposed h hcont h' =>
      obtain ⟨us, t, vs, rfl, ht, hus, hvs⟩ := ih h'
      exact ⟨_, t, vs, (List.append_assoc _ us _).symm, ht,
        .juxtaposed h (hcont.of_append hus.ne_nil) hus, hvs⟩

theorem Spelled.split_juxtaposed (h : Spelled ts first (before ++ ⟨.juxtaposed, e⟩ :: after)) :
    ∃ us vs, ts = us ++ vs ∧ Continues vs ∧ Spelled us first before ∧ Spelled vs e after := by
  induction before generalizing ts first with
  | nil =>
    cases h with
    | juxtaposed h hcont h' => exact ⟨_, _, rfl, hcont, .single h, h'⟩
  | cons j before ih =>
    cases h with
    | written h ho h' =>
      obtain ⟨us, vs, rfl, hcont, hus, hvs⟩ := ih h'
      exact ⟨_, vs, (List.append_assoc _ (_ :: us) _).symm, hcont, .written h ho hus, hvs⟩
    | juxtaposed h hcont' h' =>
      obtain ⟨us, vs, rfl, hcont, hus, hvs⟩ := ih h'
      exact ⟨_, vs, (List.append_assoc _ us _).symm, hcont,
        .juxtaposed h (hcont'.of_append hus.ne_nil) hus, hvs⟩

theorem Spelled.split_multiplicative (h : Spelled ts first (before ++ j :: after))
    (hj : j.isMultiplicative = true) :
    ∃ us t vs, ts = us ++ t :: vs ∧ t.multiplicative? = some j.connector.operator ∧
      Spelled us first before ∧ Spelled vs j.atom after := by
  obtain ⟨o | _, e⟩ := j
  · obtain ⟨us, t, vs, rfl, ht, hus, hvs⟩ := h.split_written
    refine ⟨us, t, vs, rfl, ?_, hus, hvs⟩
    cases o <;> cases hj <;> cases t <;> cases ht <;> rfl
  · cases hj

theorem Spelled.split_additive (h : Spelled ts first (before ++ j :: after))
    (hj : j.isAdditive = true) :
    ∃ us t vs, ts = us ++ t :: vs ∧ t.additive? = some j.connector.operator ∧
      Spelled us first before ∧ Spelled vs j.atom after := by
  obtain ⟨o | _, e⟩ := j
  · obtain ⟨us, t, vs, rfl, ht, hus, hvs⟩ := h.split_written
    refine ⟨us, t, vs, rfl, ?_, hus, hvs⟩
    cases o <;> cases hj <;> cases t <;> cases ht <;> rfl
  · cases hj

/-- The rules that take every juxtaposed value with them. -/
def Level.IsGreedy : Level K → Prop
  | exponent | product | productTail _ => True
  | _ => False

theorem not_continues_of_derives {level : Level K} (h : Derives level ts e rest)
    (hlevel : level.IsGreedy) : ¬ Continues rest := by
  induction h with
  | exponent _ hrest _ => exact hrest
  | exponentTimes _ _ _ _ ih => exact ih trivial
  | product _ _ _ ih => exact ih trivial
  | productEnd hrest _ => exact hrest
  | factor _ _ _ _ ih => exact ih trivial
  | productTimes _ _ _ ih => exact ih trivial
  | _ => cases hlevel

theorem derives_powers (h : Spelled ts first js) (hjs : ∀ i ∈ js, i.IsExponent)
    (hx : Derives .exponent vs x rest) :
    Derives .power (ts ++ .caret :: vs) (powers first (js ++ [⟨.written .pow, x⟩])) rest := by
  induction h with
  | single h => exact .power (h _) hx
  | @written ts us t e first js o h ho _ ih =>
    obtain ⟨hj, hjs'⟩ := List.forall_mem_cons.1 hjs
    cases hj
    obtain rfl := Token.eq_caret_of_operator? ho
    rw [List.append_assoc]
    exact .power (h _) (.exponent (ih hjs') (not_continues_of_derives hx trivial))
  | juxtaposed =>
    cases (List.forall_mem_cons.1 hjs).1

/-- The tokens `ts` make up the product `left` as far as the tokens `us`, where it may go on. -/
def Opens (ts : List Token) (left : Expr K) (us : List Token) : Prop :=
  ∀ e rest, Derives (.productTail left) us e rest → Derives .product ts e rest

theorem opens_of_power (h : Derives .power ts left us) : Opens ts left us :=
  fun _ _ h' => .product h h'

theorem Opens.factor (h : Opens ts left (t :: us)) (ho : t.multiplicative? = some o)
    (he : Derives .power us e vs) : Opens ts (.op o left e) vs :=
  fun _ _ h' => h _ _ (.factor ho he h')

/-- The sequences of factors up to a length make up products wherever no caret follows, and no value
behind an exponent. -/
def OpensBelow (K : Type) [Arithmetic K] (n : Nat) : Prop :=
  ∀ (ts us : List Token) (first : Expr K) (js : List (Joined K)), js.length < n →
    Spelled ts first js → (∀ i ∈ js, i.IsFactor) → (∀ after, us ≠ .caret :: after) →
    ((∀ e, js.getLast? ≠ some ⟨.written .pow, e⟩) ∨ ¬ Continues us) →
    Opens (ts ++ us) (tree first js) us

theorem OpensBelow.mono {m n : Nat} (h : OpensBelow K n) (hmn : m ≤ n) : OpensBelow K m :=
  fun ts us first js hm => h ts us first js (Nat.lt_of_lt_of_le hm hmn)

theorem OpensBelow.operator {n : Nat} (ih : OpensBelow K n) (hn : js.length < n)
    (h : Spelled ts first js) (hjs : ∀ i ∈ js, i.IsFactor) (ht : t.multiplicative? = some o)
    (he : Derives .power us e vs) : Opens (ts ++ t :: us) (.op o (tree first js) e) vs := by
  have hcaret (after : List Token) : t :: us ≠ .caret :: after := by
    rintro ⟨⟩
    cases ht
  have hvalue := Token.startsValue_of_operator? (Token.operator?_of_multiplicative? ht)
  exact (ih ts _ first js hn h hjs hcaret (.inr (not_continues_cons hvalue us))).factor ht he

theorem opens_exponent (ih : OpensBelow K js.length) (h : Spelled ts first js)
    (hjs : ∀ i ∈ js, i.IsFactor) (hx : Derives .exponent vs x us) :
    Opens (ts ++ .caret :: vs) (tree first (js ++ [⟨.written .pow, x⟩])) us := by
  have hexp {ks : List (Joined K)} (hks : ∀ i ∈ ks, i.IsExponent) :
      ∀ i ∈ ks ++ [⟨.written .pow, x⟩], i.IsExponent :=
    List.forall_mem_append.2 ⟨hks, List.forall_mem_singleton.2 rfl⟩
  cases hsplit : splitLast? Joined.isMultiplicative js with
  | none =>
    have hpow (i : Joined K) (hi : i ∈ js) : i.IsExponent :=
      (hjs i hi).isExponent (splitLast?_eq_none_iff.1 hsplit i hi)
    rw [tree_powers (hexp hpow)]
    exact opens_of_power (derives_powers h hpow hx)
  | some t =>
    obtain ⟨before, j, after⟩ := t
    obtain ⟨rfl, hj, hafter⟩ := eq_of_splitLast? hsplit
    obtain ⟨hbefore, hafter'⟩ := List.forall_mem_append.1 hjs
    have hpow (i : Joined K) (hi : i ∈ after) : i.IsExponent :=
      (hafter' i (List.mem_cons_of_mem j hi)).isExponent (hafter i hi)
    obtain ⟨us', t, vs', rfl, ht, hus, hvs⟩ := h.split_multiplicative hj
    rw [List.append_assoc, List.cons_append, List.append_assoc, List.cons_append,
      tree_product hbefore hj (hexp hpow), tree_powers (hexp hpow)]
    exact ih.operator (by simp) hus hbefore ht (derives_powers hvs hpow hx)

theorem opensBelow (n : Nat) : OpensBelow K n := by
  induction n with
  | zero => exact fun _ _ _ _ hn => absurd hn (Nat.not_lt_zero _)
  | succ n ih =>
    intro ts us first js hn h hjs hcaret hlast
    cases hjs' : js.getLast? with
    | none =>
      obtain rfl := List.getLast?_eq_none_iff.1 hjs'
      cases h with
      | single h =>
        rw [tree_nil]
        exact opens_of_power (.base (h us) hcaret)
    | some j =>
      obtain ⟨before, rfl⟩ := List.getLast?_eq_some_iff.1 hjs'
      rw [List.length_append, List.length_singleton, Nat.succ_lt_succ_iff] at hn
      obtain ⟨hbefore, hj⟩ := List.forall_mem_append.1 hjs
      have hjf := hj j (List.mem_singleton_self j)
      cases hm : j.isMultiplicative with
      | true =>
        obtain ⟨us', t, vs, rfl, ht, hus, hvs⟩ := h.split_multiplicative hm
        cases hvs with
        | single hv =>
          rw [tree_product hbefore hm (List.forall_mem_nil _), tree_nil, List.append_assoc,
            List.cons_append]
          exact ih.operator hn hus hbefore ht (.base (hv us) hcaret)
      | false =>
        have hexp := hjf.isExponent hm
        obtain ⟨c, e⟩ := j
        cases hexp
        obtain ⟨us', t, vs, rfl, ht, hus, hvs⟩ := h.split_written
        obtain rfl := Token.eq_caret_of_operator? ht
        cases hvs with
        | single hv =>
          have hend : ¬ Continues us :=
            hlast.resolve_left fun hne => hne e List.getLast?_concat
          rw [List.append_assoc, List.cons_append]
          exact opens_exponent (ih.mono (Nat.le_of_lt hn)) hus hbefore
            (.exponent (.base (hv us) hcaret) hend)

/-- What can stand behind a product: no factor, no exponent and no value. -/
structure Ends (ts : List Token) : Prop where
  no_value : ¬ Continues ts
  no_factor : ∀ t after, ts = t :: after → t.multiplicative? = none
  no_exponent : ∀ after, ts ≠ .caret :: after

theorem ends_nil : Ends [] := ⟨nofun, nofun, nofun⟩

theorem ends_closing (bracket : Bracket) (ts : List Token) : Ends (.closing bracket :: ts) := by
  refine ⟨not_continues_cons rfl ts, ?_, nofun⟩
  rintro _ _ ⟨⟩
  rfl

theorem ends_of_additive (ht : t.additive? = some o) (ts : List Token) : Ends (t :: ts) := by
  cases t with
  | plus => exact ⟨not_continues_cons rfl ts, by rintro _ _ ⟨⟩; rfl, nofun⟩
  | minus => exact ⟨not_continues_cons rfl ts, by rintro _ _ ⟨⟩; rfl, nofun⟩
  | _ => cases ht

theorem derives_product_of_juxtaposed (h : Spelled ts first js) (hjs : ∀ i ∈ js, i.IsFactor)
    (hlast : ∀ e, js.getLast? ≠ some ⟨.written .pow, e⟩) (hus : Continues us)
    (hx : Derives .product us x rest) :
    Derives .product (ts ++ us) (.op .mul (tree first js) x) rest := by
  have hopens := opensBelow _ ts us first js (Nat.lt_succ_self _) h hjs hus.ne_caret (.inl hlast)
  obtain ⟨t, us, rfl, ht⟩ := hus
  exact hopens _ _ (.productTimes (Token.multiplicative?_of_startsValue ht) ht hx)

/-- A product juxtaposed to an exponent multiplies the exponent alone. -/
theorem derives_product_of_exponent
    (h : Spelled ts first (before ++ [⟨.written .pow, e⟩])) (hbefore : ∀ i ∈ before, i.IsFactor)
    (hus : Continues us) (hx : Derives .product us x rest) (hrest : Ends rest) :
    Derives .product (ts ++ us) (tree first (before ++ [⟨.written .pow, .op .mul e x⟩])) rest := by
  obtain ⟨ts, t, vs, rfl, ht, hts, hvs⟩ := h.split_written
  obtain rfl := Token.eq_caret_of_operator? ht
  cases hvs with
  | single hvs =>
    have hexp := Derives.exponentTimes (.base (hvs us) hus.ne_caret) hus hx
    rw [List.append_assoc, List.cons_append]
    exact opens_exponent (opensBelow _) hts hbefore hexp _ _
      (.productEnd hrest.no_value hrest.no_factor)

theorem derives_product_of_spelled (h : Spelled ts first js)
    (hjs : ∀ i ∈ js, i.isAdditive = false) (hrest : Ends rest) :
    Derives .product (ts ++ rest) (tree first js) rest := by
  induction hn : js.length using Nat.strongRecOn generalizing ts first js with
  | _ n ih =>
    subst hn
    cases hsplit : splitFirst? Joined.isJuxtaposed js with
    | none =>
      have hfactor (i : Joined K) (hi : i ∈ js) : i.IsFactor :=
        ⟨hjs i hi, splitFirst?_eq_none_iff.1 hsplit i hi⟩
      exact opensBelow _ ts rest first js (Nat.lt_succ_self _) h hfactor hrest.no_exponent
        (.inr hrest.no_value) _ _ (.productEnd hrest.no_value hrest.no_factor)
    | some t =>
      obtain ⟨before, ⟨o | _, e⟩, after⟩ := t
      · cases (eq_of_splitFirst? hsplit).2.1
      obtain ⟨rfl, hj, hbefore⟩ := eq_of_splitFirst? hsplit
      obtain ⟨hadd, hadd'⟩ := List.forall_mem_append.1 hjs
      have hfactor (i : Joined K) (hi : i ∈ before) : i.IsFactor := ⟨hadd i hi, hbefore i hi⟩
      obtain ⟨us, vs, rfl, hcont, hus, hvs⟩ := h.split_juxtaposed
      have hafter : Derives .product (vs ++ rest) (tree e after) rest :=
        ih after.length (by simp; omega) hvs (List.forall_mem_cons.1 hadd').2 rfl
      rw [List.append_assoc]
      by_cases hpow : ∃ x, before.getLast? = some ⟨.written .pow, x⟩
      · obtain ⟨x, hx⟩ := hpow
        obtain ⟨start, rfl⟩ := List.getLast?_eq_some_iff.1 hx
        have hstart := (List.forall_mem_append.1 hfactor).1
        rw [← List.append_cons, tree_exponent hstart hj hadd']
        exact derives_product_of_exponent hus hstart (hcont.append rest) hafter hrest
      · have hlast (x : Expr K) : before.getLast? ≠ some ⟨.written .pow, x⟩ :=
          fun hx => hpow ⟨x, hx⟩
        rw [tree_juxtaposed hfactor hj hadd' hlast]
        exact derives_product_of_juxtaposed hus hfactor hlast (hcont.append rest) hafter

theorem derives_addition_of_spelled (h : Spelled ts first js) (hus : Ends us)
    (htail : Derives (.additionTail (tree first js)) us e rest) :
    Derives .addition (ts ++ us) e rest := by
  induction hn : js.length using Nat.strongRecOn generalizing ts first js us with
  | _ n ih =>
    subst hn
    cases hsplit : splitLast? Joined.isAdditive js with
    | none =>
      exact .addition (derives_product_of_spelled h (splitLast?_eq_none_iff.1 hsplit) hus) htail
    | some t =>
      obtain ⟨before, j, after⟩ := t
      obtain ⟨rfl, hj, hafter⟩ := eq_of_splitLast? hsplit
      obtain ⟨us', t, vs, rfl, ht, hbefore, hvs⟩ := h.split_additive hj
      rw [tree_sum hj hafter] at htail
      rw [List.append_assoc, List.cons_append]
      exact ih before.length (by simp) hbefore (ends_of_additive ht _)
        (.summand ht (derives_product_of_spelled hvs hafter hus) htail) rfl

theorem derives_expression_of_spelled (h : Spelled ts first js) (hrest : Ends rest)
    (hadd : ∀ t after, rest = t :: after → t.additive? = none) :
    Derives .expression (ts ++ rest) (tree first js) rest :=
  .expression (derives_addition_of_spelled h hrest (.additionEnd hadd)) hrest.no_value

/-- An atom is a value, and a sequence is one of values. -/
def Phrase.Derived : Phrase K → List Token → Prop
  | atom e, ts => ∀ rest, Derives .value (ts ++ rest) e rest
  | sequence first js, ts => Spelled ts first js

theorem derived_of_spans {phrase : Phrase K} (h : Spans phrase ts) : phrase.Derived ts := by
  induction h with
  | number numeral => exact fun rest => .number numeral rest
  | imaginaryUnit => exact fun rest => .imaginaryUnit rest
  | euler => exact fun rest => .euler rest
  | pi => exact fun rest => .pi rest
  | letter name => exact fun rest => .letter name rest
  | minus _ ih => exact fun rest => .minus (ih rest)
  | @bracketed _ _ ts bracket _ ih =>
    intro rest
    rw [List.cons_append, List.append_assoc]
    refine .bracketed (derives_expression_of_spelled ih (ends_closing bracket rest) ?_)
    rintro _ _ ⟨⟩
    rfl
  | single _ ih => exact .single ih
  | written _ ho _ ih ih' => exact .written ih ho ih'
  | juxtaposed _ hus _ ih ih' => exact .juxtaposed ih hus ih'

theorem derives_of_spans (h : Spans (.sequence first js) ts) :
    Derives .expression ts (tree first js) [] := by
  have hd := derives_expression_of_spelled (derived_of_spans h :) ends_nil nofun
  rwa [List.append_nil] at hd

/-- The tokens are read as a sequence of atoms. -/
def Readable (K : Type) [Arithmetic K] (ts : List Token) : Prop :=
  ∃ (first : Expr K) (js : List (Joined K)), Spans (.sequence first js) ts

theorem Readable.ne_nil (h : Readable K ts) : ts ≠ [] := by
  obtain ⟨first, js, h⟩ := h
  exact Spelled.ne_nil (derived_of_spans h)

theorem Readable.append (h : Readable K ts)
    (hvs : ∀ (e : Expr K) (us : List Token), Spans (.atom e) us → Readable K (us ++ vs)) :
    Readable K (ts ++ vs) := by
  obtain ⟨first, js, h⟩ := h
  generalize hphrase : Phrase.sequence first js = phrase at h
  induction h generalizing first js with
  | single h => exact hvs _ _ h
  | written h ho _ _ ih =>
    obtain ⟨first', js', h'⟩ := ih _ _ rfl
    rw [List.append_assoc]
    exact ⟨_, _, .written h ho h'⟩
  | juxtaposed h hus _ _ ih =>
    obtain ⟨first', js', h'⟩ := ih _ _ rfl
    rw [List.append_assoc]
    exact ⟨_, _, .juxtaposed h (hus.append vs) h'⟩
  | _ => cases hphrase

theorem Readable.written (h : Readable K ts) (ho : t.operator? = some o) (h' : Readable K us) :
    Readable K (ts ++ t :: us) := by
  obtain ⟨first, js, h'⟩ := h'
  exact h.append fun e us hus => ⟨_, _, .written hus ho h'⟩

theorem Readable.juxtaposed (h : Readable K ts) (hus : Continues us) (h' : Readable K us) :
    Readable K (ts ++ us) := by
  obtain ⟨first, js, h'⟩ := h'
  exact h.append fun e ts hts => ⟨_, _, .juxtaposed hts hus h'⟩

def ReadsTo (K : Type) [Arithmetic K] (ts rest : List Token) : Prop :=
  ∃ us, ts = us ++ rest ∧ Readable K us

/-- What stands in front of `rest` makes a sequence longer. -/
def Extends (K : Type) [Arithmetic K] (ts rest : List Token) : Prop :=
  ∃ vs, ts = vs ++ rest ∧ ∀ us, Readable K us → Readable K (us ++ vs)

theorem ReadsTo.juxtaposed (h : ReadsTo K ts us) (hus : Continues us) (h' : ReadsTo K us rest) :
    ReadsTo K ts rest := by
  obtain ⟨ts, rfl, hts⟩ := h
  obtain ⟨us, rfl, hus'⟩ := h'
  exact ⟨ts ++ us, (List.append_assoc ..).symm, hts.juxtaposed (hus.of_append hus'.ne_nil) hus'⟩

theorem ReadsTo.extended (h : ReadsTo K ts us) (h' : Extends K us rest) : ReadsTo K ts rest := by
  obtain ⟨ts, rfl, hts⟩ := h
  obtain ⟨us, rfl, hus⟩ := h'
  exact ⟨ts ++ us, (List.append_assoc ..).symm, hus ts hts⟩

theorem extends_refl (ts : List Token) : Extends K ts ts :=
  ⟨[], rfl, fun us hus => (List.append_nil us).symm ▸ hus⟩

theorem ReadsTo.extends_written (h : ReadsTo K ts us) (ho : t.operator? = some o)
    (h' : Extends K us rest) : Extends K (t :: ts) rest := by
  obtain ⟨ts, rfl, hts⟩ := h
  obtain ⟨us, rfl, hus⟩ := h'
  refine ⟨t :: (ts ++ us), by simp, fun vs hvs => ?_⟩
  rw [← List.cons_append, ← List.append_assoc]
  exact hus _ (hvs.written ho hts)

theorem ReadsTo.extends_juxtaposed (h : ReadsTo K ts rest) (hts : Continues ts) :
    Extends K ts rest := by
  obtain ⟨ts, rfl, hts'⟩ := h
  exact ⟨ts, rfl, fun us hus => hus.juxtaposed (hts.of_append hts'.ne_nil) hts'⟩

/-- What a rule reads between the tokens it begins with and those it leaves: an atom, a sequence, or
what makes a sequence longer. -/
def Level.Covers : Level K → List Token → List Token → Prop
  | value, ts, rest => ∃ (us : List Token) (e : Expr K), ts = us ++ rest ∧ Spans (.atom e) us
  | productTail _, ts, rest | additionTail _, ts, rest => Extends K ts rest
  | _, ts, rest => ReadsTo K ts rest

theorem covers_of_derives {level : Level K} (h : Derives level ts e rest) :
    level.Covers ts rest := by
  induction h with
  | number numeral rest => exact ⟨[_], _, rfl, .number numeral⟩
  | imaginaryUnit rest => exact ⟨[_], _, rfl, .imaginaryUnit⟩
  | euler rest => exact ⟨[_], _, rfl, .euler⟩
  | pi rest => exact ⟨[_], _, rfl, .pi⟩
  | letter name rest => exact ⟨[_], _, rfl, .letter name⟩
  | minus _ ih =>
    obtain ⟨us, e, rfl, h⟩ := ih
    exact ⟨.minus :: us, _, rfl, .minus h⟩
  | @bracketed bracket _ _ _ _ ih =>
    obtain ⟨us, rfl, first, js, h⟩ := ih
    exact ⟨.opening bracket :: (us ++ [.closing bracket]), _, by simp, .bracketed bracket h⟩
  | base _ _ ih =>
    obtain ⟨us, e, rfl, h⟩ := ih
    exact ⟨us, rfl, e, [], .single h⟩
  | power _ _ ihb ihe =>
    obtain ⟨us, e, rfl, h⟩ := ihb
    obtain ⟨vs, rfl, h'⟩ := ihe
    exact ⟨us ++ .caret :: vs, by simp, .written ⟨e, [], .single h⟩ rfl h'⟩
  | exponent _ _ ih => exact ih
  | exponentTimes _ hafter _ ih ih' => exact ih.juxtaposed hafter ih'
  | product _ _ ih ih' => exact ih.extended ih'
  | productEnd => exact extends_refl _
  | factor ho _ _ ih ih' => exact ih.extends_written (Token.operator?_of_multiplicative? ho) ih'
  | productTimes _ ht _ ih => exact ih.extends_juxtaposed ⟨_, _, rfl, ht⟩
  | addition _ _ ih ih' => exact ih.extended ih'
  | additionEnd => exact extends_refl _
  | summand ho _ _ ih ih' => exact ih.extends_written (Token.operator?_of_additive? ho) ih'
  | expression _ _ ih => exact ih
  | expressionTimes _ hafter _ ih ih' => exact ih.juxtaposed hafter ih'

theorem exists_derives_iff_readable :
    (∃ e : Expr K, Derives .expression ts e []) ↔ Readable K ts := by
  constructor
  · rintro ⟨e, h⟩
    obtain ⟨us, rfl, hus⟩ := covers_of_derives h
    rwa [List.append_nil]
  · rintro ⟨first, js, h⟩
    exact ⟨tree first js, derives_of_spans h⟩

/-- The parser accepts exactly the sequences of atoms, and returns their trees. -/
theorem parseTokens_eq_ok_iff_tree (stop : Nat) (ts : List PlacedToken) (e : Expr K) :
    parseTokens stop ts = .ok e ↔
      ∃ (first : Expr K) (js : List (Joined K)),
        Spans (.sequence first js) (ts.map (·.token)) ∧ tree first js = e := by
  have hok (first : Expr K) (js : List (Joined K))
      (h : Spans (.sequence first js) (ts.map (·.token))) :
      parseTokens stop ts = .ok (tree first js) :=
    (parseTokens_eq_ok_iff stop ts _).2 (derives_of_spans h)
  constructor
  · intro h
    obtain ⟨first, js, hreads⟩ :=
      exists_derives_iff_readable.1 ⟨e, (parseTokens_eq_ok_iff stop ts e).1 h⟩
    exact ⟨first, js, hreads, Except.ok.inj ((hok first js hreads).symm.trans h)⟩
  · rintro ⟨first, js, hreads, rfl⟩
    exact hok first js hreads

/-- What generates the tokens of a phrase. -/
def Phrase.nonterminal : Phrase K → Nonterminal
  | atom _ => .atom
  | sequence _ _ => .sentence

theorem generates_of_spans {phrase : Phrase K} (h : Spans phrase ts) :
    Generates phrase.nonterminal ts := by
  induction h with
  | number numeral => exact .primary (.number numeral)
  | imaginaryUnit => exact .primary .imaginaryUnit
  | euler => exact .primary .euler
  | pi => exact .primary .pi
  | letter name => exact .primary (.letter name)
  | minus _ ih => exact .minus ih
  | bracketed bracket _ ih => exact .primary (.bracketed bracket ih)
  | single _ ih => exact .single ih
  | written _ ho _ ih ih' => exact .connected ih (by simp [ho]) ih'
  | juxtaposed _ _ _ ih ih' => exact .joined ih ih'

/-- An atom begins with a value or with a minus in front of an atom. -/
theorem Spans.continues_or_minus (h : Spans (.atom e) ts) :
    Continues ts ∨ ∃ us e', ts = .minus :: us ∧ Spans (K := K) (.atom e') us := by
  cases h with
  | minus h => exact .inr ⟨_, _, rfl, h⟩
  | _ => exact .inl ⟨_, _, rfl, rfl⟩

theorem Readable.continues_or_minus (h : Readable K ts) :
    Continues ts ∨ ∃ us, ts = .minus :: us ∧ Readable K us := by
  obtain ⟨first, js, h⟩ := h
  cases h with
  | single hatom =>
    rcases hatom.continues_or_minus with hcont | ⟨us, e, rfl, he⟩
    · exact .inl hcont
    · exact .inr ⟨us, rfl, e, [], .single he⟩
  | written hatom ho h' =>
    rcases hatom.continues_or_minus with hcont | ⟨us, e, rfl, he⟩
    · exact .inl (hcont.append _)
    · exact .inr ⟨_, rfl, _, _, .written he ho h'⟩
  | juxtaposed hatom hus h' =>
    rcases hatom.continues_or_minus with hcont | ⟨us, e, rfl, he⟩
    · exact .inl (hcont.append _)
    · exact .inr ⟨_, rfl, _, _, .juxtaposed he hus h'⟩

/-- How generated tokens are read: the others than sentences as atoms. -/
def Nonterminal.Readable (K : Type) [Arithmetic K] : Nonterminal → List Token → Prop
  | sentence, ts => Grammar.Readable K ts
  | _, ts => ∃ e : Expr K, Spans (.atom e) ts

theorem readable_of_generates {nonterminal : Nonterminal} (h : Generates nonterminal ts) :
    nonterminal.Readable K ts := by
  induction h with
  | number numeral => exact ⟨_, .number numeral⟩
  | imaginaryUnit => exact ⟨_, .imaginaryUnit⟩
  | euler => exact ⟨_, .euler⟩
  | pi => exact ⟨_, .pi⟩
  | letter name => exact ⟨_, .letter name⟩
  | bracketed bracket _ ih =>
    obtain ⟨first, js, h⟩ := ih
    exact ⟨_, .bracketed bracket h⟩
  | primary _ ih => exact ih
  | minus _ ih =>
    obtain ⟨e, h⟩ := ih
    exact ⟨_, .minus h⟩
  | single _ ih =>
    obtain ⟨e, h⟩ := ih
    exact ⟨e, [], .single h⟩
  | joined _ _ ih ih' =>
    obtain ⟨e, h⟩ := ih
    have hatom : Grammar.Readable K _ := ⟨e, [], .single h⟩
    -- a minus at the beginning of the second part is binary
    rcases Grammar.Readable.continues_or_minus ih' with hcont | ⟨us, rfl, hus⟩
    · exact hatom.juxtaposed hcont ih'
    · exact hatom.written rfl hus
  | connected _ ht _ ih ih' =>
    obtain ⟨e, h⟩ := ih
    obtain ⟨o, ho⟩ := Option.ne_none_iff_exists'.1 ht
    exact Readable.written ⟨e, [], .single h⟩ ho ih'

/-- The parser accepts exactly the sentences. -/
theorem parseTokens_ok_iff_generates (stop : Nat) (ts : List PlacedToken) :
    (∃ e : Expr K, parseTokens stop ts = .ok e) ↔ Generates .sentence (ts.map (·.token)) := by
  simp only [parseTokens_eq_ok_iff, exists_derives_iff_readable]
  constructor
  · rintro ⟨first, js, h⟩
    exact generates_of_spans h
  · exact fun h => readable_of_generates h

end Grammar
end ComplexAlgebra
