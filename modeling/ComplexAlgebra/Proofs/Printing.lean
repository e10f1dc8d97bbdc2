import ComplexAlgebra.CommandLine
import ComplexAlgebra.Proofs.ReadBack
import ComplexAlgebra.Proofs.Reading
import ComplexAlgebra.Proofs.Spelling
import ComplexAlgebra.Proofs.UnitCoefficient

/-! What the text of an expression is read as. It is a sequence of atoms: a number with one part is
its magnitude under a sign, with the imaginary unit behind it if it is imaginary; a coefficient
stands right in front of its letter; and an operation joins the atoms of its operands, each of them
in brackets if it is an operation or a scaled variable itself. -/
namespace ComplexAlgebra

namespace Grammar

open Token (Tokenizes Detached Single)

/-- A sequence of atoms. -/
structure Atoms (K : Type) where
  first : Expr K
  others : List (Joined K)

namespace Atoms

variable {K : Type}

def single (e : Expr K) : Atoms K := ⟨e, []⟩

def times (e e' : Expr K) : Atoms K := ⟨e, [⟨.juxtaposed, e'⟩]⟩

def join (o : Operator) (p q : Atoms K) : Atoms K :=
  ⟨p.first, p.others ++ ⟨.written o, q.first⟩ :: q.others⟩

def tree (p : Atoms K) : Expr K := Grammar.tree p.first p.others

def enclosed (needed : Bool) (p : Atoms K) : Atoms K := if needed then single p.tree else p

theorem tree_single (e : Expr K) : (single e).tree = e := tree_nil

theorem tree_enclosed (needed : Bool) (p : Atoms K) : (p.enclosed needed).tree = p.tree := by
  cases needed with
  | false => rfl
  | true => exact tree_single p.tree

theorem tree_join_additive {o : Operator} (ho : o = .add ∨ o = .sub) (p q : Atoms K)
    (hq : ∀ j ∈ q.others, j.isAdditive = false) : (p.join o q).tree = .op o p.tree q.tree := by
  rcases ho with rfl | rfl
  · exact tree_sum rfl hq
  · exact tree_sum rfl hq

theorem tree_join_single (o : Operator) (e e' : Expr K) :
    ((single e).join o (single e')).tree = .op o e e' := by
  have hproduct {j : Joined K} (hj : j.isMultiplicative = true) :
      Grammar.tree e ([] ++ [j]) = .op j.connector.operator e j.atom := by
    rw [tree_product (List.forall_mem_nil _) hj (List.forall_mem_nil _), tree_nil, tree_nil]
  have hsum (hadditive : o = .add ∨ o = .sub) :
      ((single e).join o (single e')).tree = .op o e e' := by
    rw [tree_join_additive hadditive _ _ (List.forall_mem_nil _), tree_single, tree_single]
  cases o with
  | add => exact hsum (.inl rfl)
  | sub => exact hsum (.inr rfl)
  | mul => exact hproduct rfl
  | div => exact hproduct rfl
  | pow => exact tree_powers (List.forall_mem_singleton.2 rfl)

theorem tree_times (e e' : Expr K) : (times e e').tree = .op .mul e e' := by
  have hjs : ∀ i ∈ [(⟨.juxtaposed, e'⟩ : Joined K)], i.isAdditive = false :=
    List.forall_mem_singleton.2 rfl
  have htree : (times e e').tree = .op .mul (Grammar.tree e []) (Grammar.tree e' []) :=
    tree_juxtaposed (List.forall_mem_nil _) rfl hjs nofun
  rwa [tree_nil, tree_nil] at htree

/-- Unless they are a term of a sum, the first of two atoms on the left multiplies all the rest. -/
theorem tree_times_join {o : Operator} (e e' : Expr K) {q : Atoms K}
    (ho : (⟨.written o, q.first⟩ : Joined K).isAdditive = false)
    (hq : ∀ j ∈ q.others, j.isAdditive = false) :
    ((times e e').join o q).tree = .op .mul e ((single e').join o q).tree := by
  have hjs : ∀ j ∈ (⟨.juxtaposed, e'⟩ : Joined K) :: ⟨.written o, q.first⟩ :: q.others,
      j.isAdditive = false :=
    List.forall_mem_cons.2 ⟨rfl, List.forall_mem_cons.2 ⟨ho, hq⟩⟩
  have htree : ((times e e').join o q).tree =
      .op .mul (Grammar.tree e []) ((single e').join o q).tree :=
    tree_juxtaposed (List.forall_mem_nil _) rfl hjs nofun
  rwa [tree_nil] at htree

/-- Of two atoms on the right of a product or quotient, the last one multiplies what is before. -/
theorem tree_product_times {o : Operator} (ho : o = .mul ∨ o = .div) (e f f' : Expr K) :
    ((single e).join o (times f f')).tree = .op .mul (.op o e f) f' := by
  have hbefore : ∀ j ∈ [(⟨.written o, f⟩ : Joined K)], j.IsFactor := by
    rcases ho with rfl | rfl <;> exact List.forall_mem_singleton.2 ⟨rfl, rfl⟩
  have hlast (e : Expr K) : [(⟨.written o, f⟩ : Joined K)].getLast? ≠ some ⟨.written .pow, e⟩ := by
    rcases ho with rfl | rfl <;> exact nofun
  have hjs : ∀ j ∈ [(⟨.juxtaposed, f'⟩ : Joined K)], j.isAdditive = false :=
    List.forall_mem_singleton.2 rfl
  have htree : ((single e).join o (times f f')).tree =
      .op .mul ((single e).join o (single f)).tree (Grammar.tree f' []) :=
    tree_juxtaposed hbefore rfl hjs hlast
  rwa [tree_nil, tree_join_single] at htree

/-- A power with two atoms on the right has both of them as its exponent. -/
theorem tree_pow_times (e f f' : Expr K) :
    ((single e).join .pow (times f f')).tree = .op .pow e (.op .mul f f') := by
  have hjs : ∀ j ∈ [(⟨.juxtaposed, f'⟩ : Joined K)], j.isAdditive = false :=
    List.forall_mem_singleton.2 rfl
  have htree : ((single e).join .pow (times f f')).tree =
      ((single e).join .pow (single (.op .mul f (Grammar.tree f' [])))).tree :=
    tree_exponent (List.forall_mem_nil _) rfl hjs
  rwa [tree_nil, tree_join_single] at htree

theorem enclosed_single (needed : Bool) (e : Expr K) : (single e).enclosed needed = single e := by
  cases needed with
  | false => rfl
  | true => exact congrArg single (tree_single e)

end Atoms

variable {K : Type} [Arithmetic K]

theorem Spans.join {p q : Atoms K} {ts us : List Token} {t : Token} {o : Operator}
    (h : Spans (.sequence p.first p.others) ts) (ho : t.operator? = some o)
    (h' : Spans (.sequence q.first q.others) us) :
    Spans (.sequence (p.join o q).first (p.join o q).others) (ts ++ t :: us) := by
  obtain ⟨first, js⟩ := p
  show Spans (.sequence first (js ++ ⟨.written o, q.first⟩ :: q.others)) (ts ++ t :: us)
  replace h : Spans (.sequence first js) ts := h
  generalize hphrase : Phrase.sequence first js = phrase at h
  induction h generalizing first js with
  | single h =>
    cases hphrase
    exact .written h ho h'
  | written h ho' _ _ ih =>
    cases hphrase
    rw [List.append_assoc]
    exact .written h ho' (ih _ _ rfl)
  | juxtaposed h hus _ _ ih =>
    cases hphrase
    rw [List.append_assoc]
    exact .juxtaposed h (hus.append _) (ih _ _ rfl)
  | _ => cases hphrase

/-- A text is read as a phrase, whatever stands behind it and does not go on with a numeral. -/
def Prints (cs : List Char) (phrase : Phrase K) : Prop :=
  ∃ ts, Spans phrase ts ∧
    ∀ rest us, Detached rest → Tokenizes rest us → Tokenizes (cs ++ rest) (ts ++ us)

/-- A text is read as a sequence of atoms. -/
abbrev PrintsAtoms (cs : List Char) (p : Atoms K) : Prop := Prints cs (.sequence p.first p.others)

def Connects (cs : List Char) (o : Operator) : Prop :=
  ∃ t : Token, t.operator? = some o ∧ (∀ rest, Detached (cs ++ rest)) ∧
    ∀ rest us, Tokenizes rest us → Tokenizes (cs ++ rest) (t :: us)

variable {cs ds : List Char} {e e' : Expr K} {p q : Atoms K}

theorem not_numeral_of_single {c : Char} {t : Token} (hc : Single c t) :
    Token.isNumeral c = false := by
  have hpoint : c ≠ '.' := by
    rintro rfl
    cases hc.token
  rw [Token.isNumeral, hc.not_digit, Bool.false_or, beq_eq_false_iff_ne]
  exact hpoint

theorem prints_numeral (d : Decimal) :
    Prints (K := K) d.text.toList (.atom (.number (Arithmetic.ofDecimal d))) :=
  ⟨_, .number d, fun _ _ hrest h => Token.tokenizes_numeral d hrest h⟩

theorem prints_of_single {c : Char} {t : Token} (hc : Single c t) (h : Spans (.atom e) [t]) :
    Prints [c] (.atom e) :=
  ⟨_, h, fun _ _ _ hus => Token.tokenizes_single hc hus⟩

theorem Prints.minus (h : Prints cs (.atom e)) :
    Prints ('-' :: cs) (.atom (.op .sub (.number 0) e)) := by
  obtain ⟨ts, hts, hcs⟩ := h
  exact ⟨_, .minus hts, fun rest us hrest hus =>
    Token.tokenizes_single ⟨rfl, rfl, rfl⟩ (hcs rest us hrest hus)⟩

theorem PrintsAtoms.parenthesized (h : PrintsAtoms cs p) :
    Prints ('(' :: (cs ++ [')'])) (.atom p.tree) := by
  obtain ⟨ts, hts, hcs⟩ := h
  refine ⟨_, .bracketed .round hts, fun rest us hrest hus => ?_⟩
  simp only [List.cons_append, List.append_assoc, List.nil_append]
  refine Token.tokenizes_single ⟨rfl, rfl, rfl⟩ (hcs _ _ ?_ ?_)
  · rintro c ⟨⟩
    rfl
  · exact Token.tokenizes_single ⟨rfl, rfl, rfl⟩ hus

theorem PrintsAtoms.enclosed {text : String} (h : PrintsAtoms text.toList p) (needed : Bool) :
    PrintsAtoms (bracketed needed text).toList (p.enclosed needed) := by
  cases needed with
  | false => exact h
  | true =>
    obtain ⟨ts, hts, hcs⟩ := h.parenthesized
    have hprints : PrintsAtoms ('(' :: (text.toList ++ [')'])) (.single p.tree) :=
      ⟨ts, .single hts, hcs⟩
    simpa [bracketed, Atoms.enclosed] using hprints

theorem Prints.single (h : Prints cs (.atom e)) : PrintsAtoms cs (.single e) := by
  obtain ⟨ts, hts, hcs⟩ := h
  exact ⟨ts, .single hts, hcs⟩

theorem Prints.times {c : Char} {t : Token} (h : Prints cs (.atom e)) (hc : Single c t)
    (ht : t.startsValue = true) (h' : Spans (.atom e') [t]) :
    PrintsAtoms (cs ++ [c]) (.times e e') := by
  obtain ⟨ts, hts, hcs⟩ := h
  refine ⟨_, .juxtaposed hts ⟨t, [], rfl, ht⟩ (.single h'), fun rest us hrest hus => ?_⟩
  rw [List.append_assoc, List.append_assoc]
  refine hcs _ _ ?_ (Token.tokenizes_single hc hus)
  rintro x ⟨⟩
  exact not_numeral_of_single hc

theorem PrintsAtoms.join {o : Operator} (h : PrintsAtoms cs p) {k : List Char} (hk : Connects k o)
    (h' : PrintsAtoms ds q) : PrintsAtoms (cs ++ (k ++ ds)) (p.join o q) := by
  obtain ⟨ts, hts, hcs⟩ := h
  obtain ⟨us, hus, hds⟩ := h'
  obtain ⟨t, ht, hdetached, hk⟩ := hk
  refine ⟨_, hts.join ht hus, fun rest vs hrest hvs => ?_⟩
  rw [List.append_assoc, List.append_assoc, List.append_assoc]
  exact hcs _ _ (hdetached _) (hk _ _ (hds _ _ hrest hvs))

theorem parse_of_prints (h : PrintsAtoms cs p) : parse cs = .ok p.tree := by
  obtain ⟨ts, hts, hcs⟩ := h
  obtain ⟨placed, hplaced, heq⟩ := hcs [] [] nofun Token.tokenizes_nil 0
  rw [List.append_nil] at hplaced heq
  exact parse_eq_ok_iff.2 ⟨placed, hplaced, heq ▸ derives_of_spans hts⟩

theorem connects_single {c : Char} {t : Token} {o : Operator} (hc : Single c t)
    (ht : t.operator? = some o) : Connects [c] o := by
  refine ⟨t, ht, fun rest => ?_, fun rest us hus => Token.tokenizes_single hc hus⟩
  rintro x ⟨⟩
  exact not_numeral_of_single hc

theorem connects_symbol (o : Operator) :
    ∃ c, o.symbol.toList = [c] ∧ Connects [' ', c, ' '] o ∧ Connects [c] o := by
  have hspaced {c : Char} {t : Token} (hc : Single c t) (ht : t.operator? = some o) :
      Connects [' ', c, ' '] o := by
    refine ⟨t, ht, fun rest => ?_, fun rest us hus => ?_⟩
    · rintro x ⟨⟩
      rfl
    · exact Token.tokenizes_blank rfl
        (Token.tokenizes_single hc (Token.tokenizes_blank rfl hus))
  have hsymbol : ∃ c t, o.symbol.toList = [c] ∧ Single c t ∧ t.operator? = some o := by
    cases o <;> exact ⟨_, _, rfl, ⟨rfl, rfl, rfl⟩, rfl⟩
  obtain ⟨c, t, htext, hc, ht⟩ := hsymbol
  exact ⟨c, htext, hspaced hc ht, connects_single hc ht⟩

def underSign (negative : Bool) (e : Expr K) : Expr K :=
  if negative then .op .sub (.number 0) e else e

theorem Prints.underSign (h : Prints cs (.atom e)) (negative : Bool) :
    Prints ((if negative then "-" else "").toList ++ cs) (.atom (underSign negative e)) := by
  cases negative with
  | false => exact h
  | true => exact h.minus

end Grammar

namespace FloatNumber

open Grammar

variable {K : Type} [Arithmetic K]

def magnitude (x : Float) : Expr K := .number (Arithmetic.ofDecimal (Binary64.numeral x))

def imaginaryAtoms (negative : Bool) (y : Float) : Atoms K :=
  if y.abs == 1 then .single (underSign negative (.number Arithmetic.imaginaryUnit))
  else .times (underSign negative (magnitude y.abs)) (.number Arithmetic.imaginaryUnit)

def atoms (z : FloatNumber) : Atoms K :=
  if z.re == 0 then
    if z.im == 0 then .single (.number (Arithmetic.ofDecimal ⟨0, 0⟩))
    else imaginaryAtoms (z.im < 0) z.im
  else
    let real : Atoms K := .single (underSign (z.re < 0) (magnitude z.re))
    if z.im == 0 then real
    else real.join (if z.im < 0 then .sub else .add) (imaginaryAtoms false z.im)

theorem prints_component {x : Float} (h : x.isFinite = true) (h0 : (x == 0) = false) :
    Prints (componentText x).toList (.atom (underSign (x < 0) (magnitude (K := K) x))) := by
  have htext : componentText x =
      (if decide (x < 0) then "-" else "") ++ (Binary64.numeral x).text := by
    rw [componentText, Binary64.isNaN_of_isFinite h, Binary64.isInf_of_isFinite h,
      if_neg Bool.false_ne_true, if_neg Bool.false_ne_true, Binary64.text_eq_numeral h h0]
    simp only [decide_eq_true_eq]
  rw [htext, String.toList_append]
  exact (prints_numeral _).underSign _

theorem prints_imaginaryUnit : Prints (K := K) ['i'] (.atom (.number Arithmetic.imaginaryUnit)) :=
  prints_of_single ⟨rfl, rfl, rfl⟩ .imaginaryUnit

theorem prints_imaginary (negative : Bool) {y : Float} (h : y.isFinite = true)
    (h0 : (y == 0) = false) :
    PrintsAtoms (K := K)
      ((if negative then "-" else "") ++ (if y.abs == 1 then "" else componentText y.abs) ++
        "i").toList (imaginaryAtoms negative y) := by
  rw [imaginaryAtoms, String.toList_append, String.toList_append]
  by_cases hone : (y.abs == 1) = true
  · rw [if_pos hone, if_pos hone]
    have hunit := ((prints_imaginaryUnit (K := K)).underSign negative).single
    simpa using hunit
  · obtain ⟨hfinite, habs, hneg⟩ := Binary64.abs_of_isFinite h h0
    have hmagnitude := prints_component (K := K) hfinite habs
    rw [decide_eq_false hneg] at hmagnitude
    rw [if_neg hone, if_neg hone]
    exact (hmagnitude.underSign negative).times ⟨rfl, rfl, rfl⟩ rfl .imaginaryUnit

theorem prints_text {z : FloatNumber} (h : z.isFinite = true) :
    PrintsAtoms (K := K) (text z).toList (atoms z) := by
  obtain ⟨hre, him⟩ := Bool.and_eq_true_iff.1 h
  rw [text, atoms, imaginaryText, separator]
  cases h0 : z.re == 0 with
  | true =>
    cases h0' : z.im == 0 with
    | true => exact (prints_numeral ⟨0, 0⟩).single
    | false =>
      have himaginary := prints_imaginary (K := K) (decide (z.im < 0)) him h0'
      simpa using himaginary
  | false =>
    have hreal := (prints_component (K := K) hre h0).single
    cases h0' : z.im == 0 with
    | true => simpa using hreal
    | false =>
      have himaginary := prints_imaginary (K := K) false him h0'
      have hsign : (if z.im < 0 then "-" else "+") =
          (if z.im < 0 then Operator.sub else .add).symbol := by split <;> rfl
      obtain ⟨c, hc, -, hconnects⟩ := connects_symbol (if z.im < 0 then .sub else .add)
      have hjoined := hreal.join hconnects himaginary
      simpa [hsign, hc] using hjoined

theorem prints_real {z : FloatNumber} (h : z.isFinite = true) (h0 : (z.im == 0) = true) :
    Prints (K := K) (text z).toList (.atom (atoms z).tree) := by
  obtain ⟨ts, hts, hcs⟩ := prints_text (K := K) h
  have hsingle : (atoms z : Atoms K) = .single (atoms z).tree := by
    rw [atoms, h0]
    split <;> rw [if_pos rfl, Atoms.tree_single]
  rw [hsingle] at hts
  cases hts with
  | single h => exact ⟨ts, h, hcs⟩

end FloatNumber

namespace Expr

open Grammar

variable {K : Type} [Arithmetic K]

/-- A coefficient stands in front of its variable; one is left out and minus one is only a sign. -/
def variableAtoms (name : Char) (c : FloatNumber) : Atoms K :=
  if c == 1 then .single (.var name 1)
  else if c == -1 then .single (underSign true (.var name 1))
  else .times c.atoms.tree (.var name 1)

def atoms : Expr FloatNumber → Atoms K
  | .constant (.scalar z) => z.atoms.enclosed (z.re != 0 && z.im != 0)
  | .constant (.list _) => .single (.number 0)
  | .var name c => variableAtoms name c
  | .op o l r =>
    (l.atoms.enclosed l.needsBrackets).join o (r.atoms.enclosed r.needsBrackets)

/-- Without lists, with finite numbers and coefficients, and with the names of variables. -/
def Printable : Expr FloatNumber → Prop
  | .constant (.scalar z) => z.isFinite = true
  | .constant (.list _) => False
  | .var name c => isVariableName name = true ∧ c.isFinite = true
  | .op _ l r => l.Printable ∧ r.Printable

theorem prints_variable {name : Char} {c : FloatNumber} (hname : isVariableName name = true)
    (hc : c.isFinite = true) :
    PrintsAtoms (K := K) (Expr.var name c).text.toList (variableAtoms name c) := by
  have hsingle := Token.single_letter hname
  have hletter : Prints (K := K) [name] (.atom (.var name 1)) :=
    prints_of_single hsingle (.letter name)
  rw [text, coefficientText, variableAtoms]
  by_cases hone : (c == 1) = true
  · rw [if_pos hone, if_pos hone]
    simpa using hletter.single
  · rw [if_neg hone, if_neg hone]
    by_cases hminus : (c == -1) = true
    · rw [if_pos hminus, if_pos hminus]
      simpa using (hletter.underSign true).single
    · rw [if_neg hminus, if_neg hminus]
      have hcoefficient : Prints (K := K) (bracketed (c.im != 0) (FloatNumber.text c)).toList
          (.atom c.atoms.tree) := by
        cases hreal : c.im == 0 with
        | true =>
          rw [show (c.im != 0) = false by rw [bne, hreal]; rfl]
          exact FloatNumber.prints_real hc hreal
        | false =>
          rw [show (c.im != 0) = true by rw [bne, hreal]; rfl]
          simpa [bracketed] using (FloatNumber.prints_text (K := K) hc).parenthesized
      simpa using hcoefficient.times hsingle rfl (.letter name)

theorem prints_text {e : Expr FloatNumber} (h : e.Printable) :
    PrintsAtoms (K := K) e.text.toList e.atoms := by
  induction e with
  | constant v =>
    cases v with
    | scalar z => exact (FloatNumber.prints_text h).enclosed _
    | list zs => exact h.elim
  | var name c => exact prints_variable h.1 h.2
  | op o l r ihl ihr =>
    obtain ⟨c, hc, hspaced, -⟩ := connects_symbol o
    have hjoined := ((ihl h.1).enclosed l.needsBrackets).join hspaced
      ((ihr h.2).enclosed r.needsBrackets)
    rw [text, atoms]
    simpa [hc] using hjoined

/-- The text of an expression parses, to the tree of its atoms. -/
theorem parse_text {e : Expr FloatNumber} (h : e.Printable) :
    parse e.text.toList = .ok (e.atoms.tree : Expr K) :=
  parse_of_prints (prints_text h)

end Expr
end ComplexAlgebra
