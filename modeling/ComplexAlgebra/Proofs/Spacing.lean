import ComplexAlgebra.Proofs.Spelling

/-! Blanks between parts of a text. No numeral reaches across a blank, so a text with blanks in the
middle has the tokens of what stands before them and of what stands behind them, and the first error
of these. How many blanks there are, and which, makes no difference to the tree of a text. -/
namespace ComplexAlgebra
namespace Token

/-- No numeral reaches from the end of one text into the next. -/
def Apart (a b : List Char) : Prop :=
  ∀ c ∈ a.getLast?, ∀ d ∈ b.head?, isNumeral c = false ∨ isNumeral d = false

theorem Apart.of_suffix {a a' b : List Char} (h : Apart a b) (hsuffix : a' <:+ a) : Apart a' b := by
  obtain ⟨front, rfl⟩ := hsuffix
  intro c hc
  refine h c ?_
  rw [List.getLast?_append, Option.mem_def.1 hc]
  rfl

theorem Apart.takeWhile_append {c : Char} {cs b : List Char} (h : Apart (c :: cs) b)
    (hc : isNumeral c = true) :
    (cs ++ b).takeWhile isNumeral = cs.takeWhile isNumeral ∧
      (cs ++ b).dropWhile isNumeral = cs.dropWhile isNumeral ++ b := by
  induction cs generalizing c with
  | nil =>
    cases b with
    | nil => exact ⟨rfl, rfl⟩
    | cons d b =>
      have hd : ¬ isNumeral d = true := by
        rcases h c rfl d rfl with hnot | hnot
        · exact absurd (hc.symm.trans hnot) (by decide)
        · rw [hnot]
          decide
      exact ⟨List.takeWhile_cons_of_neg hd, List.dropWhile_cons_of_neg hd⟩
  | cons x cs ih =>
    by_cases hx : isNumeral x = true
    · obtain ⟨htake, hdrop⟩ := ih (h.of_suffix (List.suffix_cons c _)) hx
      rw [List.cons_append, List.takeWhile_cons_of_pos hx, List.takeWhile_cons_of_pos hx, htake,
        List.dropWhile_cons_of_pos hx, List.dropWhile_cons_of_pos hx, hdrop]
      exact ⟨rfl, rfl⟩
    · rw [List.cons_append, List.takeWhile_cons_of_neg hx, List.takeWhile_cons_of_neg hx,
        List.dropWhile_cons_of_neg hx, List.dropWhile_cons_of_neg hx]
      exact ⟨rfl, rfl⟩

/-- The tokens of a text, or its error, followed by those of the text behind it. -/
def andThen (first later : Except ParseError (List PlacedToken)) :
    Except ParseError (List PlacedToken) :=
  match first, later with
  | .error e, _ => .error e
  | .ok _, .error e => .error e
  | .ok ts, .ok us => .ok (ts ++ us)

theorem nil_andThen (later : Except ParseError (List PlacedToken)) :
    andThen (.ok []) later = later := by
  cases later <;> rfl

theorem map_andThen (t : PlacedToken) (first later : Except ParseError (List PlacedToken)) :
    andThen (first.map (t :: ·)) later = (andThen first later).map (t :: ·) := by
  cases first <;> cases later <;> rfl

theorem scan_append {a b : List Char} (h : Apart a b) (position : Nat) :
    scan position (a ++ b) = andThen (scan position a) (scan (position + byteLength a) b) := by
  fun_induction scan position a with
  | case1 => exact (nil_andThen _).symm
  | case2 position c cs hb ih =>
    rw [List.cons_append, scan, if_pos hb, ih (h.of_suffix (List.suffix_cons c cs)),
      byteLength_cons, Nat.add_assoc]
  | case3 position c cs hb hd run numeral hn ih =>
    obtain ⟨htake, hdrop⟩ := h.takeWhile_append (isNumeral_of_isDigit hd)
    have hsuffix := (List.dropWhile_suffix isNumeral).trans (List.suffix_cons c cs)
    have hlength : byteLength run + byteLength (cs.dropWhile isNumeral) = byteLength (c :: cs) := by
      rw [← byteLength_append, List.cons_append, List.takeWhile_append_dropWhile]
    rw [List.cons_append, scan, if_neg hb, if_pos hd]
    simp only [htake, hdrop]
    rw [hn, map_andThen, ← hlength, ← Nat.add_assoc]
    exact congrArg (Except.map (⟨.number numeral, position⟩ :: ·)) (ih (h.of_suffix hsuffix))
  | case4 position c cs hb hd run hn =>
    obtain ⟨htake, -⟩ := h.takeWhile_append (isNumeral_of_isDigit hd)
    rw [List.cons_append, scan, if_neg hb, if_pos hd]
    simp only [htake]
    rw [hn]
    rfl
  | case5 position c cs hb hd token ht ih =>
    rw [List.cons_append, scan, if_neg hb, if_neg hd, ht, map_andThen, byteLength_cons,
      ← Nat.add_assoc]
    exact congrArg (Except.map (⟨token, position⟩ :: ·)) (ih (h.of_suffix (List.suffix_cons c cs)))
  | case6 position c cs hb hd ht =>
    rw [List.cons_append, scan, if_neg hb, if_neg hd, ht]
    rfl

/-- The blanks between two texts. There may be none where no numeral reaches across. -/
structure Gap (a blanks b : List Char) : Prop where
  isBlank : ∀ c ∈ blanks, isBlank c = true
  apart : blanks = [] → Apart a b

theorem isNumeral_of_isBlank {c : Char} (h : isBlank c = true) : isNumeral c = false := by
  refine Bool.eq_false_iff.2 fun hc => ?_
  rcases Bool.or_eq_true_iff.1 hc with hdigit | hpoint
  · rw [isBlank_of_isDigit hdigit] at h
    cases h
  · rw [eq_of_beq hpoint] at h
    cases h

theorem Gap.apart_append {a blanks b : List Char} (h : Gap a blanks b) : Apart a (blanks ++ b) := by
  cases blanks with
  | nil => exact h.apart rfl
  | cons x blanks =>
    rintro c - d ⟨⟩
    exact .inr (isNumeral_of_isBlank (h.isBlank x List.mem_cons_self))

theorem Gap.tokenize_append {a blanks b : List Char} (h : Gap a blanks b) :
    tokenize (a ++ blanks ++ b) =
      andThen (tokenize a) (shiftScan (byteLength (a ++ blanks)) (tokenize b)) := by
  rw [tokenize, List.append_assoc, scan_append h.apart_append, scan_blanks_append _ h.isBlank,
    Nat.add_assoc, ← byteLength_append, scan_shift]
  rfl

def tokens? (source : List Char) : Option (List Token) :=
  (tokenize source).toOption.map (·.map (·.token))

theorem Gap.tokens?_append {a blanks b : List Char} (h : Gap a blanks b) :
    tokens? (a ++ blanks ++ b) = (tokens? a).bind fun ts => (tokens? b).map (ts ++ ·) := by
  rw [tokens?, tokens?, tokens?, h.tokenize_append]
  cases tokenize a with
  | error e => rfl
  | ok ts =>
    cases tokenize b with
    | error e => rfl
    | ok us => simp [andThen, shiftScan, PlacedToken.shift, Except.toOption]

/-- Two texts that differ only in the blanks between their parts. -/
inductive Respaced : List Char → List Char → Prop
  | refl (source : List Char) : Respaced source source
  | gap {a a' blanks blanks' b b' : List Char} (ha : Respaced a a') (hb : Respaced b b')
    (h : Gap a blanks b) (h' : Gap a' blanks' b') :
    Respaced (a ++ blanks ++ b) (a' ++ blanks' ++ b')

theorem Respaced.tokens?_eq {source respaced : List Char} (h : Respaced source respaced) :
    tokens? source = tokens? respaced := by
  induction h with
  | refl => rfl
  | gap _ _ hgap hgap' iha ihb => rw [hgap.tokens?_append, hgap'.tokens?_append, iha, ihb]

theorem parse_eq_ok_iff_tokens? {K : Type} [Arithmetic K] {source : List Char} {tree : Expr K} :
    parse source = .ok tree ↔
      ∃ ts, tokens? source = some ts ∧ Grammar.Derives .expression ts tree [] := by
  rw [parse_eq_ok_iff, tokens?]
  cases tokenize source with
  | error e => simp [Except.toOption]
  | ok ts => simp [Except.toOption]

/-- The tokens of a text with blanks in the middle are those of what stands before the blanks and of
what stands behind them, where the whole text has them, and so is its error. So texts that differ
only in their blanks have the same tree. -/
theorem tokenize_compositional (K : Type) [Arithmetic K] :
    (∀ a blanks b : List Char, blanks ≠ [] → (∀ c ∈ blanks, isBlank c = true) →
      tokenize (a ++ blanks ++ b) =
        match tokenize a, tokenize b with
        | .error e, _ => .error e
        | .ok _, .error e => .error (e.shift (byteLength (a ++ blanks)))
        | .ok ts, .ok us => .ok (ts ++ us.map (·.shift (byteLength (a ++ blanks))))) ∧
    ∀ source respaced, Respaced source respaced → ∀ tree : Expr K,
      parse source = .ok tree ↔ parse respaced = .ok tree := by
  refine ⟨fun a blanks b hne hblank => ?_, fun source respaced h tree => ?_⟩
  · have hgap : Gap a blanks b := ⟨hblank, fun hnil => absurd hnil hne⟩
    rw [hgap.tokenize_append]
    cases tokenize a with
    | error e => rfl
    | ok ts => cases tokenize b <;> rfl
  · rw [parse_eq_ok_iff_tokens?, parse_eq_ok_iff_tokens?, h.tokens?_eq]

end Token
end ComplexAlgebra
