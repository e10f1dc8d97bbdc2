import Mathlib.Data.List.TakeWhile
import ComplexAlgebra.Proofs.Session

/-! Texts and their tokens. The text of a decimal is one numeral, which is read as that decimal;
what stands behind it must not go on with it. So a text that is put together from numerals, single
characters and blanks has the tokens of its pieces, wherever it stands. -/
namespace ComplexAlgebra
namespace Decimal

/-- The digits of a decimal, with zeros in front so that at least one stands before the point. -/
def padded (d : Decimal) : List Char :=
  let digits := Nat.toDigits 10 d.digits
  List.replicate (d.places + 1 - digits.length) '0' ++ digits

theorem isDigit_of_mem_padded {d : Decimal} {c : Char} (h : c ∈ d.padded) : c.isDigit = true := by
  rcases List.mem_append.1 h with h | h
  · rw [List.eq_of_mem_replicate h]
    rfl
  · exact Nat.isDigit_of_mem_toDigits (by decide) (by decide) h

theorem places_lt_length_padded (d : Decimal) : d.places < d.padded.length := by
  rw [padded, List.length_append, List.length_replicate]
  omega

theorem ofDigits_padded (d : Decimal) : ofDigits d.padded = d.digits := by
  show Nat.ofDigitChars 10 d.padded 0 = d.digits
  rw [padded, Nat.ofDigitChars_append, Nat.ofDigitChars_replicate_zero, Nat.mul_zero,
    Nat.ofDigitChars_ten_toDigits]

theorem isDigit_ne_point {c : Char} (h : c.isDigit = true) : c ≠ '.' := by
  rintro rfl
  cases h

theorem text_of_places {d : Decimal} (h : d.places ≠ 0) :
    d.text.toList = d.padded.take (d.padded.length - d.places) ++
      '.' :: d.padded.drop (d.padded.length - d.places) := by
  rw [text, if_neg h, String.toList_ofList]
  rfl

theorem text_of_whole {d : Decimal} (h : d.places = 0) : d.text.toList = d.padded := by
  have hpos : 0 < (Nat.toDigits 10 d.digits).length := Nat.length_toDigits_pos
  have hzeros : 1 - (Nat.toDigits 10 d.digits).length = 0 := by omega
  rw [text, if_pos h, String.toList_ofList, padded, h]
  simp only [Nat.zero_add, hzeros]
  rfl

theorem ofRun?_whole {cs : List Char} (h : ∀ c ∈ cs, c.isDigit = true) :
    ofRun? cs = some ⟨ofDigits cs, 0⟩ := by
  have hpoint : '.' ∉ cs := fun hmem => isDigit_ne_point (h _ hmem) rfl
  have hdrop : cs.dropWhile (· != '.') = [] :=
    List.dropWhile_eq_nil_iff.2 fun c hc => bne_iff_ne.2 (isDigit_ne_point (h c hc))
  rw [ofRun?, List.count_eq_zero.2 hpoint, if_pos (Nat.zero_le 1), List.filter_eq_self.2 h, hdrop]
  rfl

theorem ofRun?_pointed {cs ds : List Char} (h : ∀ c ∈ cs, c.isDigit = true)
    (h' : ∀ c ∈ ds, c.isDigit = true) :
    ofRun? (cs ++ '.' :: ds) = some ⟨ofDigits (cs ++ ds), ds.length⟩ := by
  have hcount : (cs ++ '.' :: ds).count '.' = 1 := by
    rw [List.count_append, List.count_cons_self,
      List.count_eq_zero.2 fun hmem => isDigit_ne_point (h _ hmem) rfl,
      List.count_eq_zero.2 fun hmem => isDigit_ne_point (h' _ hmem) rfl]
  have hdigits : (cs ++ '.' :: ds).filter Char.isDigit = cs ++ ds := by
    rw [List.filter_append, List.filter_cons_of_neg (by decide), List.filter_eq_self.2 h,
      List.filter_eq_self.2 h']
  have hdrop : (cs ++ '.' :: ds).dropWhile (· != '.') = '.' :: ds := by
    rw [List.dropWhile_append_of_pos fun c hc => bne_iff_ne.2 (isDigit_ne_point (h c hc)),
      List.dropWhile_cons_of_neg (by decide)]
  rw [ofRun?, hcount, if_pos (Nat.le_refl 1), hdigits, hdrop, List.tail_cons]

theorem ofRun?_text (d : Decimal) : ofRun? d.text.toList = some d := by
  by_cases h : d.places = 0
  · rw [text_of_whole h, ofRun?_whole fun c hc => isDigit_of_mem_padded hc, ofDigits_padded]
    exact congrArg (fun places => some (mk d.digits places)) h.symm
  · have hlt := d.places_lt_length_padded
    have hlength : (d.padded.drop (d.padded.length - d.places)).length = d.places := by
      rw [List.length_drop]
      omega
    rw [text_of_places h,
      ofRun?_pointed (fun c hc => isDigit_of_mem_padded (List.mem_of_mem_take hc))
        fun c hc => isDigit_of_mem_padded (List.mem_of_mem_drop hc),
      List.take_append_drop, ofDigits_padded, hlength]

theorem text_eq_cons (d : Decimal) : ∃ c cs, d.text.toList = c :: cs ∧ c.isDigit = true ∧
    ∀ x ∈ cs, Token.isNumeral x = true := by
  have hnumeral {x : Char} (h : x ∈ d.padded) : Token.isNumeral x = true := by
    rw [Token.isNumeral, isDigit_of_mem_padded h, Bool.true_or]
  have hlt := d.places_lt_length_padded
  obtain ⟨c, cs, hcons⟩ := List.exists_cons_of_length_pos (Nat.zero_lt_of_lt hlt)
  have hc : c.isDigit = true := isDigit_of_mem_padded (hcons ▸ List.mem_cons_self)
  by_cases h : d.places = 0
  · refine ⟨c, cs, (text_of_whole h).trans hcons, hc, fun x hx => hnumeral ?_⟩
    rw [hcons]
    exact List.mem_cons_of_mem c hx
  · obtain ⟨k, hk⟩ : ∃ k, d.padded.length - d.places = k + 1 :=
      ⟨d.padded.length - d.places - 1, by omega⟩
    refine ⟨c, cs.take k ++ '.' :: cs.drop k, ?_, hc, fun x hx => ?_⟩
    · rw [text_of_places h, hk, hcons]
      rfl
    · have hmem (y : Char) (hy : y ∈ cs) : Token.isNumeral y = true :=
        hnumeral (hcons ▸ List.mem_cons_of_mem c hy)
      rcases List.mem_append.1 hx with hx | hx
      · exact hmem x (List.mem_of_mem_take hx)
      · rcases List.mem_cons.1 hx with rfl | hx
        · rfl
        · exact hmem x (List.mem_of_mem_drop hx)

end Decimal

namespace Token

/-- A text has these tokens, wherever it stands. -/
def Tokenizes (cs : List Char) (ts : List Token) : Prop :=
  ∀ position, ∃ placed, scan position cs = .ok placed ∧ placed.map (·.token) = ts

/-- A text that does not go on with a numeral that ends in front of it. -/
def Detached (cs : List Char) : Prop := ∀ c ∈ cs.head?, isNumeral c = false

theorem tokenizes_nil : Tokenizes [] [] := fun position => ⟨[], scan_nil position, rfl⟩

variable {cs : List Char} {ts : List Token}

theorem tokenizes_blank {c : Char} (hc : isBlank c = true) (h : Tokenizes cs ts) :
    Tokenizes (c :: cs) ts := by
  intro position
  rw [scan, if_pos hc]
  exact h _

theorem scan_blanks_append (position : Nat) {blanks : List Char}
    (h : ∀ c ∈ blanks, isBlank c = true) (rest : List Char) :
    scan position (blanks ++ rest) = scan (position + byteLength blanks) rest := by
  induction blanks generalizing position with
  | nil => rfl
  | cons c cs ih =>
    obtain ⟨hc, hcs⟩ := List.forall_mem_cons.1 h
    rw [List.cons_append, scan, if_pos hc, ih _ hcs, byteLength_cons, Nat.add_assoc]

/-- A character that is a token by itself. -/
structure Single (c : Char) (t : Token) : Prop where
  not_blank : isBlank c = false
  not_digit : c.isDigit = false
  token : ofChar? c = some t

theorem single_letter {name : Char} (h : isVariableName name = true) :
    Single name (.letter name) := by
  have hall : (Scope.alphabet.all fun c =>
      decide (isBlank c = false ∧ c.isDigit = false ∧ ofChar? c = some (.letter c))) = true := by
    decide
  obtain ⟨hblank, hdigit, htoken⟩ :=
    of_decide_eq_true (List.all_eq_true.1 hall name (Scope.mem_alphabet h))
  exact ⟨hblank, hdigit, htoken⟩

theorem tokenizes_single {c : Char} {t : Token} (hc : Single c t) (h : Tokenizes cs ts) :
    Tokenizes (c :: cs) (t :: ts) := by
  intro position
  obtain ⟨placed, hplaced, rfl⟩ := h (position + c.utf8Size)
  refine ⟨⟨t, position⟩ :: placed, ?_, rfl⟩
  rw [scan, if_neg (by rw [hc.not_blank]; decide), if_neg (by rw [hc.not_digit]; decide), hc.token]
  simp only [hplaced]
  rfl

theorem isBlank_of_isDigit {c : Char} (h : c.isDigit = true) : isBlank c = false := by
  refine Bool.eq_false_iff.2 fun hblank => ?_
  simp only [isBlank, Bool.or_eq_true, beq_iff_eq] at hblank
  rcases hblank with (((rfl | rfl) | rfl) | rfl) | rfl <;> cases h

theorem isNumeral_of_isDigit {c : Char} (h : c.isDigit = true) : isNumeral c = true := by
  rw [isNumeral, h, Bool.true_or]

theorem scan_run (position : Nat) {c : Char} {cs rest : List Char} (hc : c.isDigit = true)
    (h : ∀ x ∈ cs, isNumeral x = true) (hrest : Detached rest) :
    scan position (c :: cs ++ rest) =
      match Decimal.ofRun? (c :: cs) with
      | some numeral =>
        (scan (position + byteLength (c :: cs)) rest).map (⟨.number numeral, position⟩ :: ·)
      | none => .error (.invalidToken (String.ofList (c :: cs)) position) := by
  have htake : (cs ++ rest).takeWhile isNumeral = cs := by
    rw [List.takeWhile_append_of_pos h]
    cases rest with
    | nil => exact List.append_nil cs
    | cons x rest => rw [List.takeWhile_cons_of_neg (by rw [hrest x rfl]; decide), List.append_nil]
  have hdrop : (cs ++ rest).dropWhile isNumeral = rest := by
    rw [List.dropWhile_append_of_pos h]
    cases rest with
    | nil => rfl
    | cons x rest => rw [List.dropWhile_cons_of_neg (by rw [hrest x rfl]; decide)]
  rw [List.cons_append, scan, if_neg (by rw [isBlank_of_isDigit hc]; decide), if_pos hc]
  cases hrun : Decimal.ofRun? (c :: cs) <;> simp only [htake, hdrop, hrun]

theorem tokenizes_numeral (d : Decimal) (hcs : Detached cs) (h : Tokenizes cs ts) :
    Tokenizes (d.text.toList ++ cs) (.number d :: ts) := by
  intro position
  obtain ⟨c, run, hrun, hc, hnumeral⟩ := d.text_eq_cons
  obtain ⟨placed, hplaced, rfl⟩ := h (position + byteLength (c :: run))
  refine ⟨⟨.number d, position⟩ :: placed, ?_, rfl⟩
  rw [hrun, scan_run position hc hnumeral hcs, ← hrun, d.ofRun?_text, hrun, hplaced]
  rfl

end Token
end ComplexAlgebra
