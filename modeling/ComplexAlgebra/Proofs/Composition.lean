import ComplexAlgebra.Resolution

/-! Scripts one after the other. A script of two parts resolves the first part and goes on with the
second one in the scope that the first one leaves; the line numbers of the second part count on. How
the lines of a script end makes no difference. -/
namespace ComplexAlgebra

namespace Text

theorem trim_concat {c : Char} (hc : isSpace c = true) (cs : List Char) :
    trim (cs ++ [c]) = trim cs := by
  unfold trim
  rw [List.dropWhile_append]
  split
  · next h => simp [List.isEmpty_iff.1 h, hc]
  · rw [List.reverse_append, List.reverse_singleton, List.singleton_append, List.dropWhile_cons,
      if_pos hc]

/-- A line without the carriage return at its end. -/
def withoutReturn (line : List Char) : List Char :=
  if line.getLast? = some '\r' then line.dropLast else line

theorem trim_withoutReturn (line : List Char) : trim (withoutReturn line) = trim line := by
  unfold withoutReturn
  split
  · next h =>
    obtain ⟨cs, rfl⟩ := List.getLast?_eq_some_iff.1 h
    rw [List.dropLast_concat, trim_concat (by decide)]
  · rfl

/-- The lines of a text, given the pieces between its line feeds: a carriage return before a line
feed belongs to the end of the line, and behind the last line feed an empty piece is no line. -/
def linesOf : List (List Char) → List (List Char)
  | [] => []
  | [last] => if last.isEmpty then [] else [last]
  | line :: rest => withoutReturn line :: linesOf rest

def lines (cs : List Char) : List (List Char) := linesOf (pieces '\n' cs)

end Text

variable {K : Type} [Arithmetic K]

omit [Arithmetic K] in
def ScriptError.later (n : Nat) (e : ScriptError K) : ScriptError K :=
  { e with line := e.line + n }

namespace Scope

theorem runLines_cons (s : Scope K) (number : Nat) (line : List Char) (rest : List (List Char)) :
    s.runLines number (line :: rest) =
      if Script.isPassedOver (Text.trim line) then s.runLines (number + 1) rest
      else
        match s.resolve (Text.trim line) with
        | (.error e, t) => (.error ⟨number, e⟩, t)
        | (.ok r, t) =>
          match t.runLines (number + 1) rest with
          | (.error e, u) => (.error e, u)
          | (.ok rs, u) => (.ok (r :: rs), u) := by
  rw [runLines]
  split
  · rfl
  · rcases s.resolve (Text.trim line) with ⟨e | r, t⟩
    · rfl
    · simp only
      rcases t.runLines (number + 1) rest with ⟨e | rs, u⟩ <;> rfl

/-- A script is resolved line by line, however its lines end. -/
theorem runLines_linesOf (s : Scope K) (number : Nat) (ls : List (List Char)) :
    s.runLines number (Text.linesOf ls) = s.runLines number ls := by
  fun_induction Text.linesOf ls generalizing s number with
  | case1 => rfl
  | case2 last h =>
    obtain rfl := List.isEmpty_iff.1 h
    rfl
  | case3 last h => rfl
  | case4 line rest _ ih => simp only [runLines_cons, Text.trim_withoutReturn, ih]

theorem run_eq_runLines_lines (s : Scope K) (source : List Char) :
    s.run source = s.runLines 1 (Text.lines source) :=
  (s.runLines_linesOf 1 _).symm

theorem runLines_later (s : Scope K) (number n : Nat) (ls : List (List Char)) :
    s.runLines (number + n) ls =
      match s.runLines number ls with
      | (.error e, t) => (.error (e.later n), t)
      | (.ok rs, t) => (.ok rs, t) := by
  induction ls generalizing s number with
  | nil => rfl
  | cons line rest ih =>
    have hrest (t : Scope K) := ih t (number + 1)
    rw [Nat.add_right_comm] at hrest
    rw [runLines_cons, runLines_cons]
    split
    · exact hrest s
    · rcases s.resolve (Text.trim line) with ⟨e | r, t⟩
      · rfl
      · simp only [hrest t]
        rcases t.runLines (number + 1) rest with ⟨e | rs, u⟩ <;> rfl

theorem runLines_append (s : Scope K) (number : Nat) (ls ms : List (List Char)) :
    s.runLines number (ls ++ ms) =
      match s.runLines number ls with
      | (.error e, t) => (.error e, t)
      | (.ok rs, t) =>
        match t.runLines (number + ls.length) ms with
        | (.error e, u) => (.error e, u)
        | (.ok rs', u) => (.ok (rs ++ rs'), u) := by
  induction ls generalizing s number with
  | nil =>
    simp only [List.nil_append, runLines, List.length_nil, Nat.add_zero]
    rcases s.runLines number ms with ⟨e | rs, u⟩ <;> rfl
  | cons line rest ih =>
    rw [List.cons_append, List.length_cons, Nat.add_comm rest.length, ← Nat.add_assoc,
      runLines_cons, runLines_cons]
    split
    · exact ih s (number + 1)
    · rcases s.resolve (Text.trim line) with ⟨e | r, t⟩
      · rfl
      · simp only [ih t]
        rcases t.runLines (number + 1) rest with ⟨e | rs, u⟩
        · rfl
        · simp only
          rcases u.runLines (number + 1 + rest.length) ms with ⟨e | rs', v⟩ <;> rfl

theorem resolve_cases_outcome (s : Scope K) (source : List Char) :
    (∃ e, s.resolve source = (.error e, s)) ∨
      ∃ r, s.resolve source = (.ok r, s.after (.ok r)) := by
  cases ho : s.outcome source with
  | error e => exact .inl ⟨e, by rw [resolve, ho]; rfl⟩
  | ok r => exact .inr ⟨r, by rw [resolve, ho]⟩

theorem eq_of_runLines_ok {s t : Scope K} {number : Nat} {ls : List (List Char)}
    {rs : List (Resolution K)} (h : s.runLines number ls = (.ok rs, t)) :
    t = rs.foldl (fun s r => s.after (.ok r)) s := by
  induction ls generalizing s number rs with
  | nil =>
    cases h
    rfl
  | cons line rest ih =>
    rw [runLines_cons] at h
    split at h
    · exact ih h
    · rcases s.resolve_cases_outcome (Text.trim line) with ⟨e, hline⟩ | ⟨r, hline⟩
      · rw [hline] at h
        cases h
      · simp only [hline] at h
        split at h
        · cases h
        · next rs' u hrest =>
          cases h
          rw [List.foldl_cons]
          exact ih hrest

theorem exists_of_runLines_error {s t : Scope K} {number : Nat} {ls : List (List Char)}
    {e : ScriptError K} (h : s.runLines number ls = (.error e, t)) :
    ∃ before line behind rs, ls = before ++ line :: behind ∧ e.line = number + before.length ∧
      s.runLines number before = (.ok rs, t) ∧
      Script.isPassedOver (Text.trim line) = false ∧
      t.resolve (Text.trim line) = (.error e.cause, t) := by
  induction ls generalizing s number with
  | nil => cases h
  | cons line rest ih =>
    rw [runLines_cons] at h
    have hcons (before : List (List Char)) (n : Nat) (hn : n = number + 1 + before.length) :
        n = number + (line :: before).length := by
      rw [hn, List.length_cons, Nat.add_assoc, Nat.add_comm 1]
    split at h
    · next hp =>
      obtain ⟨before, failing, behind, rs, rfl, hnumber, hrun, hfail⟩ := ih h
      refine ⟨line :: before, failing, behind, rs, rfl, hcons _ _ hnumber, ?_, hfail⟩
      rw [runLines_cons, if_pos hp, hrun]
    · next hp =>
      rcases s.resolve_cases_outcome (Text.trim line) with ⟨e', hline⟩ | ⟨r, hline⟩
      · rw [hline] at h
        cases h
        exact ⟨[], line, rest, [], rfl, rfl, rfl, Bool.eq_false_iff.2 hp, hline⟩
      · simp only [hline] at h
        split at h
        · next hrest =>
          cases h
          obtain ⟨before, failing, behind, rs, rfl, hnumber, hrun, hfail⟩ := ih hrest
          refine ⟨line :: before, failing, behind, r :: rs, rfl, hcons _ _ hnumber, ?_, hfail⟩
          rw [runLines_cons, if_neg hp]
          simp only [hline, hrun]
        · cases h

/-- A script of two parts is the first part and, unless that fails, the second one in the scope it
leaves, whose errors count the lines of the first part. A script that fails keeps what the lines
before the failing one have bound, and nothing else. -/
theorem run_append (s : Scope K) (a b : List Char) :
    match s.run a with
    | (.error e, t) =>
      s.run (a ++ '\n' :: b) = (.error e, t) ∧
      ∃ before line behind rs, Text.pieces '\n' a = before ++ line :: behind ∧
        e.line = 1 + before.length ∧ s.runLines 1 before = (.ok rs, t) ∧
        t = rs.foldl (fun s r => s.after (.ok r)) s ∧
        Script.isPassedOver (Text.trim line) = false ∧
        t.resolve (Text.trim line) = (.error e.cause, t)
    | (.ok rs, t) =>
      t = rs.foldl (fun s r => s.after (.ok r)) s ∧
      s.run (a ++ '\n' :: b) =
        match t.run b with
        | (.error e, u) => (.error (e.later (a.count '\n' + 1)), u)
        | (.ok rs', u) => (.ok (rs ++ rs'), u) := by
  have happend := s.runLines_append 1 (Text.pieces '\n' a) (Text.pieces '\n' b)
  rw [← Text.pieces_append, Text.length_pieces] at happend
  rw [← run, ← run] at happend
  rcases hrun : s.run a with ⟨e | rs, t⟩
  · rw [hrun] at happend
    obtain ⟨before, line, behind, rs, hpieces, hnumber, hbefore, hfail⟩ :=
      exists_of_runLines_error hrun
    exact ⟨happend, before, line, behind, rs, hpieces, hnumber, hbefore,
      eq_of_runLines_ok hbefore, hfail⟩
  · rw [hrun] at happend
    refine ⟨eq_of_runLines_ok hrun, happend.trans ?_⟩
    have hlater := t.runLines_later 1 (a.count '\n' + 1) (Text.pieces '\n' b)
    rw [← run] at hlater
    simp only [hlater]
    rcases t.run b with ⟨e | rs', u⟩ <;> rfl

end Scope
end ComplexAlgebra
