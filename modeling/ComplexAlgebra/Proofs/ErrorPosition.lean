import ComplexAlgebra.Proofs.MaximalMunch
import ComplexAlgebra.Proofs.ViablePrefix

/-! Where the errors of a line point. A rule of the grammar fails at one of its tokens or at the
end, and a token it does not expect is a symbol, so its text is a piece of the line. Errors on the
right of an equals sign count from the start of the line. -/
namespace ComplexAlgebra

namespace Grammar

variable {K : Type}

/-- An error is about one of these tokens, or about the end. -/
def Concerns (stop : Nat) (ts : List PlacedToken) : ParseError → Prop
  | .invalidToken _ _ => False
  | .unexpectedToken t position => ⟨t, position⟩ ∈ ts ∧ t.startsValue = false
  | .unexpectedEnd position => position = stop
  | .unclosed _ position => position = stop ∨ ∃ t ∈ ts, t.position = position

theorem Concerns.mono {stop : Nat} {ts rest : List PlacedToken} {e : ParseError}
    (h : Concerns stop rest e) (hrest : rest <:+ ts) : Concerns stop ts e := by
  cases e with
  | invalidToken => exact h
  | unexpectedToken => exact ⟨hrest.subset h.1, h.2⟩
  | unexpectedEnd => exact h
  | unclosed => exact h.imp_right fun ⟨t, ht, hposition⟩ => ⟨t, hrest.subset ht, hposition⟩

theorem Concerns.position {stop : Nat} {ts : List PlacedToken} {e : ParseError}
    (h : Concerns stop ts e) : e.position = stop ∨ ∃ t ∈ ts, t.position = e.position := by
  cases e with
  | invalidToken => exact h.elim
  | unexpectedToken => exact .inr ⟨_, h.1, rfl⟩
  | unexpectedEnd => exact .inl h
  | unclosed => exact h

/-- A rule leaves the last tokens over, or its error is about one of its tokens or the end. -/
def Reports {n : Nat} (stop : Nat) (ts : List PlacedToken) : Except ParseError (Parsed K n) → Prop
  | .ok p => p.rest <:+ ts
  | .error e => Concerns stop ts e

section Reports

variable {m n stop : Nat} {ts rest : List PlacedToken}

theorem Reports.mono {r : Except ParseError (Parsed K n)} (h : Reports stop rest r)
    (hrest : rest <:+ ts) : Reports stop ts r := by
  cases r with
  | ok p => exact List.IsSuffix.trans h hrest
  | error e => exact Concerns.mono h hrest

theorem Reports.ok {r : Except ParseError (Parsed K n)} (h : Reports stop ts r) {p : Parsed K n}
    (hr : r = .ok p) : p.rest <:+ ts := by
  rw [hr] at h
  exact h

theorem Reports.error {r : Except ParseError (Parsed K n)} (h : Reports stop ts r) {e : ParseError}
    (hr : r = .error e) : Concerns stop ts e := by
  rw [hr] at h
  exact h

theorem after_suffix {p : Parsed K n} {t : PlacedToken} {after : List PlacedToken}
    (h : p.rest <:+ ts) (hrest : p.rest = t :: after) : after <:+ ts :=
  (List.suffix_cons t after).trans (hrest ▸ h)

end Reports

section Rules

variable [Arithmetic K]

mutual

theorem reports_value (stop : Nat) (ts : List PlacedToken) :
    Reports stop ts (value (K := K) stop ts) := by
  match ts with
  | [] =>
    rw [value]
    exact rfl
  | ⟨token, position⟩ :: rest =>
    have hsuffix := List.suffix_cons (⟨token, position⟩ : PlacedToken) rest
    cases token with
    | number | imaginaryUnit | euler | pi | letter =>
      rw [value]
      exact hsuffix
    | plus | star | slash | caret | closing =>
      rw [value]
      exact ⟨List.mem_cons_self, rfl⟩
    | minus =>
      have hvalue := (reports_value stop rest).mono hsuffix
      rw [value]
      split
      · next e he => exact hvalue.error he
      · next q hq => exact hvalue.ok hq
    | opening bracket =>
      have hinside := (reports_expression stop rest).mono hsuffix
      rw [value]
      split
      · next e he => exact hinside.error he
      · next q hq =>
        have hrest := hinside.ok hq
        split
        · next t after ht =>
          split
          · exact after_suffix hrest ht
          · exact .inr ⟨t, hrest.subset (ht ▸ List.mem_cons_self), rfl⟩
        · exact .inl rfl
termination_by 8 * ts.length

theorem reports_power (stop : Nat) (ts : List PlacedToken) :
    Reports stop ts (power (K := K) stop ts) := by
  have hvalue := reports_value stop ts
  unfold power
  split
  · next e he => exact hvalue.error he
  · next q hq =>
    have hrest := hvalue.ok hq
    split
    · next position after ht =>
      have hlt := q.lt_of_rest_eq_cons ht (Nat.le_refl _)
      have hexponent := (reports_exponent stop after).mono (after_suffix hrest ht)
      split
      · next e he => exact hexponent.error he
      · next r hr => exact hexponent.ok hr
    · exact hrest
termination_by 8 * ts.length + 1

theorem reports_exponent (stop : Nat) (ts : List PlacedToken) :
    Reports stop ts (exponent (K := K) stop ts) := by
  have hpower := reports_power stop ts
  unfold exponent
  split
  · next e he => exact hpower.error he
  · next q hq =>
    have hlt := q.rest_lt
    have hrest := hpower.ok hq
    split
    · have hproduct := (reports_product stop q.rest).mono hrest
      split
      · next e he => exact hproduct.error he
      · next r hr =>
        have hafter := hproduct.ok hr
        exact hafter
    · exact hrest
termination_by 8 * ts.length + 2

theorem reports_product (stop : Nat) (ts : List PlacedToken) :
    Reports stop ts (product (K := K) stop ts) := by
  have hpower := reports_power stop ts
  unfold product
  split
  · next e he => exact hpower.error he
  · next q hq =>
    have hlt := q.rest_lt
    have htail := (reports_productTail stop q.tree q.rest).mono (hpower.ok hq)
    split
    · next e he => exact htail.error he
    · next r hr => exact htail.ok hr
termination_by 8 * ts.length + 3

theorem reports_productTail (stop : Nat) (left : Expr K) (ts : List PlacedToken) :
    Reports stop ts (productTail stop left ts) := by
  match ts with
  | [] =>
    rw [productTail]
    exact List.suffix_refl _
  | t :: rest =>
    unfold productTail
    split
    · next o ho =>
      have hpower := (reports_power stop rest).mono (List.suffix_cons t rest)
      split
      · next e he => exact hpower.error he
      · next q hq =>
        have hlt := q.rest_lt
        have htail := (reports_productTail stop (.op o left q.tree) q.rest).mono (hpower.ok hq)
        split
        · next e he => exact htail.error he
        · next r hr => exact htail.ok hr
    · split
      · have hproduct := reports_product stop (t :: rest)
        split
        · next e he => exact hproduct.error he
        · next q hq =>
          have hafter := hproduct.ok hq
          exact hafter
      · exact List.suffix_refl _
termination_by 8 * ts.length + 4

theorem reports_addition (stop : Nat) (ts : List PlacedToken) :
    Reports stop ts (addition (K := K) stop ts) := by
  have hproduct := reports_product stop ts
  unfold addition
  split
  · next e he => exact hproduct.error he
  · next q hq =>
    have hlt := q.rest_lt
    have htail := (reports_additionTail stop q.tree q.rest).mono (hproduct.ok hq)
    split
    · next e he => exact htail.error he
    · next r hr => exact htail.ok hr
termination_by 8 * ts.length + 5

theorem reports_additionTail (stop : Nat) (left : Expr K) (ts : List PlacedToken) :
    Reports stop ts (additionTail stop left ts) := by
  match ts with
  | [] =>
    rw [additionTail]
    exact List.suffix_refl _
  | t :: rest =>
    unfold additionTail
    split
    · next o ho =>
      have hproduct := (reports_product stop rest).mono (List.suffix_cons t rest)
      split
      · next e he => exact hproduct.error he
      · next q hq =>
        have hlt := q.rest_lt
        have htail := (reports_additionTail stop (.op o left q.tree) q.rest).mono (hproduct.ok hq)
        split
        · next e he => exact htail.error he
        · next r hr => exact htail.ok hr
    · exact List.suffix_refl _
termination_by 8 * ts.length + 5

theorem reports_expression (stop : Nat) (ts : List PlacedToken) :
    Reports stop ts (expression (K := K) stop ts) := by
  have haddition := reports_addition stop ts
  unfold expression
  split
  · next e he => exact haddition.error he
  · next q hq =>
    have hlt := q.rest_lt
    have hrest := haddition.ok hq
    split
    · have hexpression := (reports_expression stop q.rest).mono hrest
      split
      · next e he => exact hexpression.error he
      · next r hr =>
        have hafter := hexpression.ok hr
        exact hafter
    · exact hrest
termination_by 8 * ts.length + 6

end

/-- The tokens left over behind an expression are an error about the first of them, a bracket. -/
theorem concerns_of_parseTokens {stop : Nat} {ts : List PlacedToken} {e : ParseError}
    (h : parseTokens (K := K) stop ts = .error e) : Concerns stop ts e := by
  have hreports := reports_expression (K := K) stop ts
  unfold parseTokens at h
  split at h
  · next e' he =>
    cases h
    exact hreports.error he
  · next p hp =>
    split at h
    · cases h
    · next t after hrest =>
      obtain ⟨bracket, ht⟩ := exists_closing_of_expression hp hrest
      have hmem : t ∈ ts := (hreports.ok hp).subset (hrest ▸ List.mem_cons_self)
      cases h
      exact ⟨hmem, by rw [ht]; rfl⟩

end Rules

end Grammar

namespace Token

theorem Splits.append {a b : List Char} {pieces pieces' : List (List Char × Role)}
    (h : Splits a pieces) (hb : ∀ c, EndsBefore c b) (h' : Splits b pieces') :
    Splits (a ++ b) (pieces ++ pieces') := by
  induction h with
  | nil => exact h'
  | @cons piece rest role pieces hpiece hlongest hrest ih =>
    obtain ⟨c, cs, rfl⟩ := hpiece.exists_cons
    have hbefore := (longest_iff hpiece.goesOn).1 hlongest
    have hends : EndsBefore c (rest ++ b) := by
      cases rest with
      | nil => exact hb c
      | cons x rest => exact fun y hy => hbefore y hy
    rw [List.append_assoc]
    exact Splits.cons_iff.2 ⟨hpiece, hends, ih⟩

theorem goesOn_eq_false {x : Char} (hblank : isBlank x = false) (hnumeral : isNumeral x = false)
    (c : Char) : goesOn c x = false := by
  unfold goesOn
  split
  · exact hblank
  · split
    · exact hnumeral
    · rfl

theorem Splits.equation {left right : List Char} {pieces pieces' : List (List Char × Role)}
    (h : Splits left pieces) (h' : Splits right pieces') :
    Splits (left ++ '=' :: right) (pieces ++ (['='], .invalid) :: pieces') := by
  have hpiece : Piece ['='] .invalid := by
    refine .other (by decide) (by decide) fun t ht htext => ?_
    have htoken : ofChar? '=' = some t := (single_iff.2 ⟨ht, htext⟩).token
    exact absurd htoken (by simp [ofChar?, isVariableName])
  refine h.append ?_ (Splits.cons_iff.2 ⟨hpiece, fun x _ => rfl, h'⟩)
  rintro c _ ⟨⟩
  exact goesOn_eq_false rfl rfl c

theorem mem_placed {position : Nat} {pieces : List (List Char × Role)} {t : PlacedToken}
    (h : t ∈ placed position pieces) :
    ∃ before piece after, pieces = before ++ (piece, .token t.token) :: after ∧
      t.position = position + byteLength (joined before) := by
  induction pieces generalizing position with
  | nil => cases h
  | cons p pieces ih =>
    obtain ⟨piece, role⟩ := p
    have hlater (hmem : t ∈ placed (position + byteLength piece) pieces) :
        ∃ before other after, (piece, role) :: pieces = before ++ (other, .token t.token) :: after ∧
          t.position = position + byteLength (joined before) := by
      obtain ⟨before, other, after, rfl, hposition⟩ := ih hmem
      refine ⟨(piece, role) :: before, other, after, rfl, ?_⟩
      rw [hposition, Nat.add_assoc, ← byteLength_append]
      rfl
    cases role with
    | blank => exact hlater h
    | invalid => exact hlater h
    | token u =>
      rcases List.mem_cons.1 h with rfl | hmem
      · exact ⟨[], piece, pieces, rfl, rfl⟩
      · exact hlater hmem

theorem Splits.piece {cs piece : List Char} {role : Role} {before after : List (List Char × Role)}
    (h : Splits cs (before ++ (piece, role) :: after)) : Piece piece role := by
  obtain ⟨-, hafter, -⟩ := h.of_append
  generalize joined ((piece, role) :: after) = text at hafter
  cases hafter with
  | cons hpiece => exact hpiece

theorem Piece.eq_text {piece : List Char} {t : Token} (h : Piece piece (.token t))
    (ht : t.startsValue = false) : piece = t.text.toList := by
  cases h with
  | whole => cases ht
  | pointed => cases ht
  | symbol _ htext => exact htext.symm

end Token

open Token

/-- What an error says of its position in a text: a character starts there or the text ends, and
what the error reports stands there. -/
structure PointsInto (source : List Char) (e : ParseError) : Prop where
  boundary : ∃ before after, source = before ++ after ∧ e.position = byteLength before
  invalidToken : ∀ lexeme position, e = .invalidToken lexeme position →
    ∃ before after, source = before ++ lexeme.toList ++ after ∧ position = byteLength before
  unexpectedToken : ∀ t position, e = .unexpectedToken t position →
    ∃ before after, Splits source (before ++ (t.text.toList, .token t) :: after) ∧
      position = byteLength (joined before)

namespace PointsInto

variable {left right source : List Char} {e : ParseError}

theorem of_left (h : PointsInto left e) : PointsInto (left ++ '=' :: right) e := by
  obtain ⟨⟨before, after, hleft, hposition⟩, hlexeme, htoken⟩ := h
  refine ⟨⟨before, after ++ '=' :: right, ?_, hposition⟩, ?_, ?_⟩
  · rw [hleft, List.append_assoc]
  · intro lexeme position he
    obtain ⟨front, back, hleft, hlength⟩ := hlexeme lexeme position he
    refine ⟨front, back ++ '=' :: right, ?_, hlength⟩
    rw [hleft, List.append_assoc]
  · intro t position he
    obtain ⟨front, back, hsplits, hlength⟩ := htoken t position he
    obtain ⟨pieces, hright⟩ := exists_splits right
    have hequation := hsplits.equation hright
    rw [List.append_assoc] at hequation
    exact ⟨front, _, hequation, hlength⟩

theorem of_right (h : PointsInto right e) :
    PointsInto (left ++ '=' :: right) (e.shift (byteLength left + 1)) := by
  obtain ⟨⟨before, after, hright, hposition⟩, hlexeme, htoken⟩ := h
  have hlength (cs : List Char) :
      byteLength cs + (byteLength left + 1) = byteLength (left ++ '=' :: cs) := by
    rw [byteLength_append, byteLength_cons, show '='.utf8Size = 1 from rfl]
    omega
  refine ⟨⟨left ++ '=' :: before, after, ?_, ?_⟩, ?_, ?_⟩
  · rw [hright, List.append_assoc, List.cons_append]
  · rw [ParseError.position_shift, hposition, hlength]
  · intro lexeme position he
    cases e with
    | invalidToken other p =>
      cases he
      obtain ⟨front, back, hright, rfl⟩ := hlexeme _ _ rfl
      refine ⟨left ++ '=' :: front, back, ?_, hlength front⟩
      rw [hright, List.append_assoc, List.append_assoc, List.append_assoc, List.cons_append]
    | _ => cases he
  · intro t position he
    cases e with
    | unexpectedToken u p =>
      cases he
      obtain ⟨front, back, hsplits, rfl⟩ := htoken _ _ rfl
      obtain ⟨pieces, hleft⟩ := exists_splits left
      have hequation := hleft.equation hsplits
      rw [← List.cons_append, ← List.append_assoc] at hequation
      refine ⟨_, back, hequation, ?_⟩
      rw [hlength, hleft.eq_joined]
      simp [joined]
    | _ => cases he

theorem position_le (h : PointsInto source e) : e.position ≤ byteLength source := by
  obtain ⟨⟨before, after, rfl, hposition⟩, -, -⟩ := h
  rw [hposition, byteLength_append]
  exact Nat.le_add_right _ _

end PointsInto

variable {K : Type} [Arithmetic K] {source : List Char} {e : ParseError}

theorem pointsInto_of_tokenize (h : tokenize source = .error e) : PointsInto source e := by
  obtain ⟨before, piece, after, hsplits, -, rfl⟩ := scan_eq_error_iff.1 h
  obtain ⟨-, -, rfl⟩ := hsplits.of_append
  rw [Nat.zero_add]
  refine ⟨⟨_, _, rfl, rfl⟩, ?_, nofun⟩
  rintro _ _ ⟨⟩
  refine ⟨joined before, joined after, ?_, rfl⟩
  rw [String.toList_ofList, List.append_assoc]
  rfl

theorem pointsInto_of_concerns {ts : List PlacedToken} (hts : tokenize source = .ok ts)
    (h : Grammar.Concerns (byteLength source) ts e) : PointsInto source e := by
  obtain ⟨pieces, hsplits, -, rfl⟩ := scan_eq_ok_iff.1 hts
  refine ⟨?_, ?_, ?_⟩
  · rcases h.position with hstop | ⟨t, ht, hposition⟩
    · exact ⟨source, [], (List.append_nil _).symm, hstop⟩
    · obtain ⟨before, piece, after, rfl, hlength⟩ := mem_placed ht
      obtain ⟨-, -, hsource⟩ := hsplits.of_append
      rw [Nat.zero_add] at hlength
      exact ⟨_, _, hsource, hposition.symm.trans hlength⟩
  · rintro lexeme position rfl
    exact h.elim
  · rintro t position rfl
    obtain ⟨before, piece, after, rfl, hlength⟩ := mem_placed h.1
    obtain rfl := hsplits.piece.eq_text h.2
    rw [Nat.zero_add] at hlength
    exact ⟨before, after, hsplits, hlength⟩

theorem pointsInto_of_parse (h : parse (K := K) source = .error e) : PointsInto source e := by
  unfold parse at h
  split at h
  · next e' hts =>
    cases h
    exact pointsInto_of_tokenize hts
  · next ts hts => exact pointsInto_of_concerns hts (Grammar.concerns_of_parseTokens h)

namespace Scope

variable {s : Scope K}

theorem parse_eq_error_of_evaluateText (h : s.evaluateText source = .error (.parse e)) :
    parse (K := K) source = .error e := by
  unfold evaluateText at h
  split at h
  · next e' he =>
    cases h
    exact he
  · split at h <;> cases h

theorem parse_eq_error_of_solveText {left right : List Char}
    (h : s.solveText left right = .error (.parse e)) :
    parse (K := K) left = .error e ∨
      (∃ l : Expr K, parse left = .ok l) ∧
        ∃ e', parse (K := K) right = .error e' ∧ e = e'.shift (byteLength left + 1) := by
  unfold solveText at h
  split at h
  · next e' he =>
    cases h
    exact .inl he
  · next l hl =>
    split at h
    · next e' he =>
      cases h
      exact .inr ⟨⟨l, hl⟩, e', he, rfl⟩
    · split at h <;> cases h

/-- A line with several equals signs is never read, so the error is one of the expression or of a
side of the equation. The left side is read first. -/
theorem parse_error_cases (h : (s.resolve source).1 = .error (.parse e)) :
    (Text.pieces '=' source = [source] ∧ parse (K := K) source = .error e) ∨
      ∃ left right, Text.pieces '=' source = [left, right] ∧
        (parse (K := K) left = .error e ∨
          (∃ l : Expr K, parse left = .ok l) ∧
            ∃ e', parse (K := K) right = .error e' ∧ e = e'.shift (byteLength left + 1)) := by
  change s.outcome source = _ at h
  unfold outcome at h
  split at h
  · next expression hpieces =>
    obtain rfl := Text.eq_of_pieces_eq_singleton hpieces
    split at h
    · next e' he =>
      cases h
      exact .inl ⟨hpieces, parse_eq_error_of_evaluateText he⟩
    · cases h
  · next left right hpieces =>
    split at h
    · next e' he =>
      cases h
      exact .inr ⟨left, right, hpieces, parse_eq_error_of_solveText he⟩
    · cases h
  · cases h

/-- A line that cannot be read fails at a position in the line, where the reported piece stands. In
an equation the error is that of the left side and lies in it, or, behind a left side that can be
read, it is that of the right side and lies behind the equals sign. -/
theorem resolve_parse_error_position (h : (s.resolve source).1 = .error (.parse e)) :
    PointsInto source e ∧ e.position ≤ byteLength source ∧
      ∀ left right, source = left ++ '=' :: right →
        (∀ e', parse (K := K) left = .error e' → e = e' ∧ e.position ≤ byteLength left) ∧
        ∀ l : Expr K, parse left = .ok l →
          ∃ e', parse (K := K) right = .error e' ∧ e = e'.shift (byteLength left + 1) ∧
            byteLength left < e.position := by
  rcases parse_error_cases h with ⟨hpieces, hparse⟩ | ⟨left, right, hpieces, hside⟩
  · have hpoints := pointsInto_of_parse hparse
    refine ⟨hpoints, hpoints.position_le, ?_⟩
    rintro left right rfl
    rw [Text.pieces_append] at hpieces
    have hlength := congrArg List.length hpieces
    rw [List.length_append, Text.length_pieces, Text.length_pieces] at hlength
    rw [List.length_singleton] at hlength
    omega
  obtain rfl := Text.eq_of_pieces_eq_pair hpieces
  have hpoints : PointsInto (left ++ '=' :: right) e := by
    rcases hside with hleft | ⟨-, e', hright, rfl⟩
    · exact (pointsInto_of_parse hleft).of_left
    · exact (pointsInto_of_parse hright).of_right
  refine ⟨hpoints, hpoints.position_le, fun left' right' hsource => ?_⟩
  rw [hsource] at hpieces
  obtain ⟨rfl, rfl⟩ := Text.eq_of_pieces_append_eq_pair hpieces
  rcases hside with hleft | ⟨⟨l, hl⟩, e', hright, rfl⟩
  · refine ⟨fun e' he => ?_, fun l hl => ?_⟩
    · cases hleft.symm.trans he
      exact ⟨rfl, (pointsInto_of_parse hleft).position_le⟩
    · cases hl.symm.trans hleft
  · refine ⟨fun e'' he => ?_, fun l' _ => ⟨e', hright, rfl, ?_⟩⟩
    · cases hl.symm.trans he
    · rw [ParseError.position_shift]
      omega

theorem parse_pi : parse "π".toList = .ok (.number (Arithmetic.pi : K)) := by
  have hpi : Token.tokenize "π".toList = .ok [⟨.pi, 0⟩] := by
    simp [Token.tokenize, Token.scan, Token.isBlank, Token.ofChar?, Except.map]
  have hlength : byteLength "π".toList = 2 := by decide
  simp only [parse, hpi, hlength]
  cbv

/-- In `π=x)` the bracket is not expected, two bytes behind the equals sign. -/
theorem resolve_parse_error_position_bracket :
    ((empty : Scope FloatNumber).resolve "π=x)".toList).1 =
      .error (.parse (.unexpectedToken (.closing .round) 4)) ∧
    PointsInto "π=x)".toList (.unexpectedToken (.closing .round) 4) ∧
    parse (K := FloatNumber) "x)".toList = .error (.unexpectedToken (.closing .round) 1) ∧
    byteLength "π".toList < 4 := by
  have hpieces : Text.pieces '=' "π=x)".toList = ["π".toList, "x)".toList] := by decide
  have hlength : byteLength "π".toList = 2 := by decide
  have hbracket : Token.tokenize "x)".toList = .ok [⟨.letter 'x', 0⟩, ⟨.closing .round, 1⟩] := by
    simp [Token.tokenize, Token.scan, Token.isBlank, Token.ofChar?, isVariableName, Except.map]
    decide
  have hleft : parse "π".toList = .ok (.number (Arithmetic.pi : FloatNumber)) := parse_pi
  have hright : parse (K := FloatNumber) "x)".toList =
      .error (.unexpectedToken (.closing .round) 1) := by
    have hstop : byteLength "x)".toList = 2 := by decide
    simp only [parse, hbracket, hstop]
    cbv
  have herror : ((empty : Scope FloatNumber).resolve "π=x)".toList).1 =
      .error (.parse (.unexpectedToken (.closing .round) 4)) := by
    simp only [resolve, outcome, hpieces, solveText, hleft, hright, hlength, ParseError.shift]
  obtain ⟨hpoints, -, hsides⟩ := resolve_parse_error_position herror
  obtain ⟨-, -, -, hbehind⟩ := (hsides "π".toList "x)".toList (by decide)).2 _ hleft
  exact ⟨herror, hpoints, hright, hbehind⟩

end Scope

end ComplexAlgebra
