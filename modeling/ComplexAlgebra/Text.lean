/-! Cutting a text at every occurrence of a separator, and at the white space around it. -/
namespace ComplexAlgebra
namespace Text

/-- The pieces between the separators, empty ones included; there is always at least one. -/
def pieces (separator : Char) : List Char → List (List Char)
  | [] => [[]]
  | c :: cs =>
    if c = separator then [] :: pieces separator cs
    else
      match pieces separator cs with
      | piece :: rest => (c :: piece) :: rest
      | [] => [[c]]

theorem pieces_ne_nil (separator : Char) (cs : List Char) : pieces separator cs ≠ [] := by
  cases cs with
  | nil => simp [pieces]
  | cons c cs =>
    unfold pieces
    split
    · simp
    · split <;> simp

theorem length_pieces (separator : Char) (cs : List Char) :
    (pieces separator cs).length = cs.count separator + 1 := by
  induction cs with
  | nil => rfl
  | cons c cs ih =>
    unfold pieces
    split
    next h => simp [h, ih]
    next h =>
      rw [List.count_cons_of_ne h]
      split
      next piece rest hp => rw [hp] at ih; simpa using ih
      next hp => exact absurd hp (pieces_ne_nil separator cs)

theorem intercalate_pieces (separator : Char) (cs : List Char) :
    [separator].intercalate (pieces separator cs) = cs := by
  induction cs with
  | nil => rfl
  | cons c cs ih =>
    unfold pieces
    split
    next h =>
      match hp : pieces separator cs with
      | [] => exact absurd hp (pieces_ne_nil separator cs)
      | piece :: rest =>
        rw [hp] at ih
        rw [h, ← ih]
        simp [List.intercalate, List.intersperse]
    next h =>
      split
      next piece rest hp =>
        rw [hp] at ih
        rw [← ih]
        cases rest <;> simp [List.intercalate, List.intersperse]
      next hp => exact absurd hp (pieces_ne_nil separator cs)

theorem pieces_of_not_mem {separator : Char} {cs : List Char} (h : separator ∉ cs) :
    pieces separator cs = [cs] := by
  induction cs with
  | nil => rfl
  | cons c cs ih =>
    rw [List.mem_cons, not_or] at h
    rw [pieces, if_neg (Ne.symm h.1), ih h.2]

theorem pieces_append (separator : Char) (cs ds : List Char) :
    pieces separator (cs ++ separator :: ds) = pieces separator cs ++ pieces separator ds := by
  induction cs with
  | nil => simp [pieces]
  | cons c cs ih =>
    rw [List.cons_append, pieces, pieces, ih]
    split
    next h => rfl
    next h =>
      match hp : pieces separator cs with
      | [] => exact absurd hp (pieces_ne_nil separator cs)
      | piece :: rest => rfl

theorem eq_of_pieces_eq_singleton {separator : Char} {cs piece : List Char}
    (h : pieces separator cs = [piece]) : cs = piece := by
  rw [← intercalate_pieces separator cs, h]
  simp [List.intercalate]

theorem eq_of_pieces_eq_pair {separator : Char} {cs left right : List Char}
    (h : pieces separator cs = [left, right]) : cs = left ++ separator :: right := by
  rw [← intercalate_pieces separator cs, h]
  simp [List.intercalate]

theorem eq_of_pieces_append_eq_pair {separator : Char} {cs ds left right : List Char}
    (h : pieces separator (cs ++ separator :: ds) = [left, right]) : cs = left ∧ ds = right := by
  rw [pieces_append] at h
  rcases List.append_eq_cons_iff.1 h with ⟨hcs, -⟩ | ⟨more, hcs, hright⟩
  · exact absurd hcs (pieces_ne_nil separator cs)
  rcases List.append_eq_cons_iff.1 hright.symm with ⟨rfl, hds⟩ | ⟨_, rfl, hds⟩
  · exact ⟨eq_of_pieces_eq_singleton hcs, eq_of_pieces_eq_singleton hds⟩
  · exact absurd (List.append_eq_nil_iff.1 hds.symm).2 (pieces_ne_nil separator ds)

/-! White space as Unicode defines it, and the removal of white space around a text. -/

/-- The ranges of characters with the property White_Space. -/
def spaceRanges : List (Nat × Nat) :=
  [(0x09, 0x0d), (0x20, 0x20), (0x85, 0x85), (0xa0, 0xa0), (0x1680, 0x1680), (0x2000, 0x200a),
    (0x2028, 0x2029), (0x202f, 0x202f), (0x205f, 0x205f), (0x3000, 0x3000)]

def isSpace (c : Char) : Bool :=
  spaceRanges.any fun range => range.1 ≤ c.toNat && c.toNat ≤ range.2

theorem isSpace_of_isWhitespace {c : Char} (h : c.isWhitespace = true) : isSpace c = true := by
  simp only [Char.isWhitespace, Bool.or_eq_true, decide_eq_true_eq] at h
  rcases h with ((rfl | rfl) | rfl) | rfl <;> decide

/-- Removes the white space at both ends. -/
def trim (cs : List Char) : List Char :=
  ((cs.dropWhile isSpace).reverse.dropWhile isSpace).reverse

end Text
end ComplexAlgebra
