import Mathlib.Data.List.TakeWhile
import ComplexAlgebra.Proofs.Spelling

/-! What a text is cut into. From the left on a text is cut into pieces, each of them as long as
possible: blanks, numerals, single characters, and runs and characters that belong to no expression.
The tokens of a text are those of its pieces, each at the offset where its piece starts, and the
error is the first piece that is none. -/
namespace ComplexAlgebra
namespace Token

/-- The tokens of a single character: all but the numerals. -/
def IsSymbol : Token → Prop
  | number _ => False
  | letter name => isVariableName name = true
  | _ => True

/-- What a piece of a text stands for. -/
inductive Role where
  | blank
  | token (t : Token)
  | invalid

/-- The pieces that texts are cut into: blanks, numerals without a point and with one, and the
characters that are tokens; apart from these, numerals with several points and all other
characters. -/
inductive Piece : List Char → Role → Prop
  | blanks {c : Char} {cs : List Char} (h : ∀ x ∈ c :: cs, isBlank x = true) :
    Piece (c :: cs) .blank
  | whole {c : Char} {cs : List Char} (h : ∀ x ∈ c :: cs, x.isDigit = true) :
    Piece (c :: cs) (.token (.number ⟨Decimal.ofDigits (c :: cs), 0⟩))
  | pointed {c : Char} {cs ds : List Char} (h : ∀ x ∈ c :: cs, x.isDigit = true)
    (h' : ∀ x ∈ ds, x.isDigit = true) :
    Piece (c :: (cs ++ '.' :: ds))
      (.token (.number ⟨Decimal.ofDigits (c :: cs ++ ds), ds.length⟩))
  | symbol {c : Char} {t : Token} (ht : t.IsSymbol) (hc : t.text.toList = [c]) :
    Piece [c] (.token t)
  | severalPoints {c : Char} {cs : List Char} (hc : c.isDigit = true)
    (h : ∀ x ∈ cs, isNumeral x = true) (hpoints : 2 ≤ cs.count '.') : Piece (c :: cs) .invalid
  | other {c : Char} (hblank : isBlank c = false) (hdigit : c.isDigit = false)
    (h : ∀ t : Token, t.IsSymbol → t.text.toList ≠ [c]) : Piece [c] .invalid

/-- A text is cut into these pieces, each with what it stands for. No piece of the language is
longer than the one that is cut off. -/
inductive Splits : List Char → List (List Char × Role) → Prop
  | nil : Splits [] []
  | cons {piece rest : List Char} {role : Role} {pieces : List (List Char × Role)}
    (h : Piece piece role)
    (longest : ∀ longer other, Piece longer other → longer <+: piece ++ rest →
      longer.length ≤ piece.length)
    (hrest : Splits rest pieces) : Splits (piece ++ rest) ((piece, role) :: pieces)

def joined (pieces : List (List Char × Role)) : List Char := pieces.flatMap (·.1)

/-- The tokens among the pieces of a text that starts at `position`. -/
def placed (position : Nat) : List (List Char × Role) → List PlacedToken
  | [] => []
  | (piece, .token t) :: rest => ⟨t, position⟩ :: placed (position + byteLength piece) rest
  | (piece, _) :: rest => placed (position + byteLength piece) rest

theorem single_iff {c : Char} {t : Token} : Single c t ↔ t.IsSymbol ∧ t.text.toList = [c] := by
  constructor
  · rintro ⟨-, -, h⟩
    unfold ofChar? at h
    split at h
    case h_15 =>
      split at h
      · next hname =>
        cases h
        exact ⟨hname, String.toList_singleton c⟩
      · cases h
    all_goals
      cases h
      exact ⟨trivial, by decide⟩
  · rintro ⟨ht, hc⟩
    cases t with
    | number => exact ht.elim
    | letter name =>
      cases (String.toList_singleton name).symm.trans hc
      exact single_letter ht
    | opening bracket =>
      cases bracket <;> cases hc <;> exact ⟨by decide, by decide, rfl⟩
    | closing bracket =>
      cases bracket <;> cases hc <;> exact ⟨by decide, by decide, rfl⟩
    | _ =>
      cases hc
      exact ⟨by decide, by decide, rfl⟩

/-- The characters that go on with a piece that begins with `c`. -/
def goesOn (c : Char) : Char → Bool :=
  if isBlank c then isBlank else if c.isDigit then isNumeral else fun _ => false

theorem goesOn_of_isBlank {c : Char} (h : isBlank c = true) : goesOn c = isBlank := if_pos h

theorem goesOn_of_isDigit {c : Char} (h : c.isDigit = true) : goesOn c = isNumeral := by
  rw [goesOn, if_neg (by rw [isBlank_of_isDigit h]; decide), if_pos h]

theorem goesOn_of_not {c : Char} (hblank : isBlank c = false) (hdigit : c.isDigit = false) :
    goesOn c = fun _ => false := by
  rw [goesOn, if_neg (by rw [hblank]; decide), if_neg (by rw [hdigit]; decide)]

theorem isNumeral_pointed {cs ds : List Char} (h : ∀ x ∈ cs, x.isDigit = true)
    (h' : ∀ x ∈ ds, x.isDigit = true) : ∀ x ∈ cs ++ '.' :: ds, isNumeral x = true :=
  List.forall_mem_append.2 ⟨fun x hx => isNumeral_of_isDigit (h x hx),
    List.forall_mem_cons.2 ⟨rfl, fun x hx => isNumeral_of_isDigit (h' x hx)⟩⟩

theorem isDigit_of_isNumeral {c : Char} (h : isNumeral c = true) (hc : c ≠ '.') :
    c.isDigit = true :=
  (Bool.or_eq_true_iff.1 h).resolve_right fun hpoint => hc (eq_of_beq hpoint)

theorem Piece.goesOn {c : Char} {cs : List Char} {role : Role} (h : Piece (c :: cs) role) :
    ∀ x ∈ cs, goesOn c x = true := by
  cases h with
  | blanks h =>
    obtain ⟨hc, hcs⟩ := List.forall_mem_cons.1 h
    rwa [goesOn_of_isBlank hc]
  | whole h =>
    obtain ⟨hc, hcs⟩ := List.forall_mem_cons.1 h
    rw [goesOn_of_isDigit hc]
    exact fun x hx => isNumeral_of_isDigit (hcs x hx)
  | pointed h h' =>
    obtain ⟨hc, hcs⟩ := List.forall_mem_cons.1 h
    rw [goesOn_of_isDigit hc]
    exact isNumeral_pointed hcs h'
  | severalPoints hc h _ => rwa [goesOn_of_isDigit hc]
  | symbol => exact fun _ hx => absurd hx List.not_mem_nil
  | other => exact fun _ hx => absurd hx List.not_mem_nil

theorem exists_piece_of_isDigit {c : Char} {cs : List Char} (hc : c.isDigit = true)
    (h : ∀ x ∈ cs, isNumeral x = true) : ∃ role, Piece (c :: cs) role := by
  by_cases hpoints : 2 ≤ cs.count '.'
  · exact ⟨_, .severalPoints hc h hpoints⟩
  have hdigits {ds : List Char} (hds : ∀ x ∈ ds, isNumeral x = true) (hpoint : '.' ∉ ds) :
      ∀ x ∈ ds, x.isDigit = true :=
    fun x hx => isDigit_of_isNumeral (hds x hx) fun heq => hpoint (heq ▸ hx)
  by_cases hpoint : '.' ∈ cs
  · obtain ⟨xs, ys, rfl, hxs⟩ := List.eq_append_cons_of_mem hpoint
    obtain ⟨hx, hy⟩ := List.forall_mem_append.1 h
    have hys : '.' ∉ ys := by
      refine fun hmem => hpoints ?_
      have hpos := List.count_pos_iff.2 hmem
      rw [List.count_append, List.count_cons_self]
      omega
    exact ⟨_, .pointed (List.forall_mem_cons.2 ⟨hc, hdigits hx hxs⟩)
      (hdigits (List.forall_mem_cons.1 hy).2 hys)⟩
  · exact ⟨_, .whole (List.forall_mem_cons.2 ⟨hc, hdigits h hpoint⟩)⟩

theorem exists_piece {c : Char} {cs : List Char} (h : ∀ x ∈ cs, Token.goesOn c x = true) :
    ∃ role, Piece (c :: cs) role := by
  by_cases hblank : isBlank c = true
  · rw [goesOn_of_isBlank hblank] at h
    exact ⟨_, .blanks (List.forall_mem_cons.2 ⟨hblank, h⟩)⟩
  by_cases hdigit : c.isDigit = true
  · rw [goesOn_of_isDigit hdigit] at h
    exact exists_piece_of_isDigit hdigit h
  rw [Bool.not_eq_true] at hblank hdigit
  obtain rfl : cs = [] := List.eq_nil_iff_forall_not_mem.2 fun x hx => by
    have hx := h x hx
    rw [goesOn_of_not hblank hdigit] at hx
    cases hx
  by_cases hsymbol : ∃ t : Token, t.IsSymbol ∧ t.text.toList = [c]
  · obtain ⟨t, ht, hc⟩ := hsymbol
    exact ⟨_, .symbol ht hc⟩
  · exact ⟨_, .other hblank hdigit fun t ht hc => hsymbol ⟨t, ht, hc⟩⟩

theorem Piece.exists_cons {piece : List Char} {role : Role} (h : Piece piece role) :
    ∃ c cs, piece = c :: cs := by
  cases h <;> exact ⟨_, _, rfl⟩

/-- A piece that begins with `c` ends in front of this text. -/
def EndsBefore (c : Char) (rest : List Char) : Prop := ∀ x ∈ rest.head?, goesOn c x = false

/-- A piece is as long as possible exactly if the text behind it does not go on with it. -/
theorem longest_iff {c : Char} {cs rest : List Char} (h : ∀ x ∈ cs, goesOn c x = true) :
    (∀ longer other, Piece longer other → longer <+: c :: cs ++ rest →
      longer.length ≤ (c :: cs).length) ↔ EndsBefore c rest := by
  constructor
  · intro hlongest x hx
    obtain ⟨after, rfl⟩ : ∃ after, rest = x :: after := by
      cases rest with
      | nil => cases hx
      | cons y after => exact ⟨after, by rw [Option.some.inj hx]⟩
    refine Bool.eq_false_iff.2 fun hgoes => ?_
    have hlonger : ∀ y ∈ cs ++ [x], goesOn c y = true :=
      List.forall_mem_append.2 ⟨h, List.forall_mem_singleton.2 hgoes⟩
    obtain ⟨other, hpiece⟩ := exists_piece hlonger
    have hle := hlongest _ other hpiece ⟨after, by simp⟩
    simp only [List.length_cons, List.length_append, List.length_nil] at hle
    omega
  · intro hends longer other hpiece hbegins
    obtain ⟨d, ds, rfl⟩ := hpiece.exists_cons
    obtain ⟨rfl, hds⟩ := List.cons_prefix_cons.1 hbegins
    refine Classical.byContradiction fun hlonger => ?_
    have hle : cs.length ≤ ds.length := by
      simp only [List.length_cons] at hlonger
      omega
    obtain ⟨more, rfl⟩ := List.prefix_of_prefix_length_le (List.prefix_append cs rest) hds hle
    cases more with
    | nil => simp at hlonger
    | cons y ys =>
      obtain ⟨after, rfl⟩ := (List.prefix_append_right_inj cs).1 hds
      have hy := hpiece.goesOn y (by simp)
      rw [hends y rfl] at hy
      cases hy

theorem Splits.cons_iff {c : Char} {cs rest : List Char} {role : Role}
    {pieces : List (List Char × Role)} :
    Splits (c :: cs ++ rest) ((c :: cs, role) :: pieces) ↔
      Piece (c :: cs) role ∧ EndsBefore c rest ∧ Splits rest pieces := by
  constructor
  · intro h
    generalize htext : c :: cs ++ rest = text at h
    cases h with
    | cons hpiece hlongest hrest =>
      cases List.append_cancel_left htext
      exact ⟨hpiece, (longest_iff hpiece.goesOn).1 hlongest, hrest⟩
  · rintro ⟨hpiece, hends, hrest⟩
    exact .cons hpiece ((longest_iff hpiece.goesOn).2 hends) hrest

theorem exists_splits (cs : List Char) : ∃ pieces, Splits cs pieces := by
  match cs with
  | [] => exact ⟨[], .nil⟩
  | c :: cs =>
    have hlt := length_dropWhile_le (goesOn c) cs
    obtain ⟨pieces, hpieces⟩ := exists_splits (cs.dropWhile (goesOn c))
    have hrun : ∀ x ∈ cs.takeWhile (goesOn c), goesOn c x = true :=
      fun x hx => List.mem_takeWhile_imp hx
    obtain ⟨role, hrole⟩ := exists_piece hrun
    have hends : EndsBefore c (cs.dropWhile (goesOn c)) := by
      intro x hx
      have hhead := List.head?_dropWhile_not (goesOn c) cs
      rw [Option.mem_def.1 hx] at hhead
      simpa using hhead
    have hsplits := Splits.cons_iff.2 ⟨hrole, hends, hpieces⟩
    rw [List.cons_append, List.takeWhile_append_dropWhile] at hsplits
    exact ⟨_, hsplits⟩
termination_by cs.length
decreasing_by exact Nat.lt_succ_of_le hlt

theorem Splits.eq_joined {cs : List Char} {pieces : List (List Char × Role)}
    (h : Splits cs pieces) : cs = joined pieces := by
  induction h with
  | nil => rfl
  | cons _ _ _ ih => rw [ih]; rfl

theorem EndsBefore.of_append {c : Char} {cs ds : List Char} (h : EndsBefore c (cs ++ ds)) :
    EndsBefore c cs := by
  cases cs with
  | nil => exact nofun
  | cons x cs => exact h

/-- The pieces in front of any other are those of the text in front of it. -/
theorem Splits.of_append {cs : List Char} {before after : List (List Char × Role)}
    (h : Splits cs (before ++ after)) :
    Splits (joined before) before ∧ Splits (joined after) after ∧
      cs = joined before ++ joined after := by
  induction before generalizing cs with
  | nil =>
    obtain rfl := h.eq_joined
    exact ⟨.nil, h, rfl⟩
  | cons p before ih =>
    obtain ⟨piece, role⟩ := p
    cases h with
    | cons hpiece hlongest hrest =>
      obtain ⟨hbefore, hafter, rfl⟩ := ih hrest
      obtain ⟨c, cs, rfl⟩ := hpiece.exists_cons
      have hends := (longest_iff hpiece.goesOn).1 hlongest
      have hcut := Splits.cons_iff.2 ⟨hpiece, hends.of_append, hbefore⟩
      exact ⟨hcut, hafter, (List.append_assoc ..).symm⟩

def Role.prepend (position : Nat) (piece : List Char) :
    Role → Except ParseError (List PlacedToken) → Except ParseError (List PlacedToken)
  | .blank, later => later
  | .token t, later => later.map (⟨t, position⟩ :: ·)
  | .invalid, _ => .error (.invalidToken (String.ofList piece) position)

theorem scan_piece {c : Char} {cs rest : List Char} {role : Role} (h : Piece (c :: cs) role)
    (hrest : EndsBefore c rest) (position : Nat) :
    scan position (c :: cs ++ rest) =
      role.prepend position (c :: cs) (scan (position + byteLength (c :: cs)) rest) := by
  have hdetached (hc : c.isDigit = true) : Detached rest := by
    rwa [EndsBefore, goesOn_of_isDigit hc] at hrest
  cases h with
  | blanks h => exact scan_blanks_append position h rest
  | whole h =>
    obtain ⟨hc, hcs⟩ := List.forall_mem_cons.1 h
    rw [scan_run position hc (fun x hx => isNumeral_of_isDigit (hcs x hx)) (hdetached hc),
      Decimal.ofRun?_whole h]
    rfl
  | pointed h h' =>
    obtain ⟨hc, hcs⟩ := List.forall_mem_cons.1 h
    rw [scan_run position hc (isNumeral_pointed hcs h') (hdetached hc), ← List.cons_append,
      Decimal.ofRun?_pointed h h']
    rfl
  | symbol ht htext =>
    obtain ⟨hblank, hdigit, htoken⟩ := single_iff.2 ⟨ht, htext⟩
    rw [List.singleton_append, scan, if_neg (by rw [hblank]; decide),
      if_neg (by rw [hdigit]; decide), htoken]
    rfl
  | severalPoints hc h hpoints =>
    have hcount : 2 ≤ (c :: cs).count '.' := Nat.le_trans hpoints List.count_le_count_cons
    rw [scan_run position hc h (hdetached hc), (Decimal.ofRun?_eq_none_iff _).2 hcount]
    rfl
  | other hblank hdigit hsymbol =>
    have htoken : ofChar? c = none := by
      refine Option.eq_none_iff_forall_ne_some.2 fun t ht => ?_
      obtain ⟨hsym, htext⟩ := single_iff.1 ⟨hblank, hdigit, ht⟩
      exact hsymbol t hsym htext
    rw [List.singleton_append, scan, if_neg (by rw [hblank]; decide),
      if_neg (by rw [hdigit]; decide), htoken]
    rfl

def Valid (pieces : List (List Char × Role)) : Prop := ∀ p ∈ pieces, p.2 ≠ .invalid

theorem Splits.scan_eq_ok {cs : List Char} {pieces : List (List Char × Role)}
    (h : Splits cs pieces) (hvalid : Valid pieces) (position : Nat) :
    scan position cs = .ok (placed position pieces) := by
  induction h generalizing position with
  | nil => exact scan_nil position
  | @cons piece rest role pieces hpiece hlongest hrest ih =>
    obtain ⟨hrole, hpieces⟩ := List.forall_mem_cons.1 hvalid
    obtain ⟨c, cs, rfl⟩ := hpiece.exists_cons
    rw [scan_piece hpiece ((longest_iff hpiece.goesOn).1 hlongest), ih hpieces]
    cases role with
    | blank => rfl
    | token t => rfl
    | invalid => exact absurd rfl hrole

theorem Splits.scan_eq_error {cs : List Char} {before after : List (List Char × Role)}
    {piece : List Char} (h : Splits cs (before ++ (piece, .invalid) :: after))
    (hvalid : Valid before) (position : Nat) :
    scan position cs =
      .error (.invalidToken (String.ofList piece) (position + byteLength (joined before))) := by
  induction before generalizing cs position with
  | nil =>
    cases h with
    | cons hpiece hlongest hrest =>
      obtain ⟨c, cs, rfl⟩ := hpiece.exists_cons
      rw [scan_piece hpiece ((longest_iff hpiece.goesOn).1 hlongest)]
      rfl
  | cons p before ih =>
    obtain ⟨first, role⟩ := p
    obtain ⟨hrole, hbefore⟩ := List.forall_mem_cons.1 hvalid
    cases h with
    | cons hpiece hlongest hrest =>
      obtain ⟨c, cs, rfl⟩ := hpiece.exists_cons
      have hlength : position + byteLength (c :: cs) + byteLength (joined before) =
          position + byteLength (joined ((c :: cs, role) :: before)) := by
        rw [Nat.add_assoc, ← byteLength_append]
        rfl
      rw [scan_piece hpiece ((longest_iff hpiece.goesOn).1 hlongest), ih hrest hbefore, hlength]
      cases role with
      | blank => rfl
      | token t => rfl
      | invalid => exact absurd rfl hrole

theorem valid_or_exists_invalid (pieces : List (List Char × Role)) :
    Valid pieces ∨ ∃ before piece after, pieces = before ++ (piece, .invalid) :: after ∧
      Valid before := by
  induction pieces with
  | nil => exact .inl nofun
  | cons p pieces ih =>
    obtain ⟨piece, role⟩ := p
    by_cases hrole : role = .invalid
    · exact .inr ⟨[], piece, pieces, by rw [hrole]; rfl, nofun⟩
    · rcases ih with hvalid | ⟨before, other, after, rfl, hbefore⟩
      · exact .inl (List.forall_mem_cons.2 ⟨hrole, hvalid⟩)
      · exact .inr ⟨_, other, after, rfl, List.forall_mem_cons.2 ⟨hrole, hbefore⟩⟩

theorem scan_eq_ok_iff {position : Nat} {cs : List Char} {ts : List PlacedToken} :
    scan position cs = .ok ts ↔
      ∃ pieces, Splits cs pieces ∧ Valid pieces ∧ ts = placed position pieces := by
  constructor
  · intro h
    obtain ⟨pieces, hsplits⟩ := exists_splits cs
    rcases valid_or_exists_invalid pieces with hvalid | ⟨before, piece, after, rfl, hbefore⟩
    · exact ⟨pieces, hsplits, hvalid,
        Except.ok.inj (h.symm.trans (hsplits.scan_eq_ok hvalid position))⟩
    · cases h.symm.trans (hsplits.scan_eq_error hbefore position)
  · rintro ⟨pieces, hsplits, hvalid, rfl⟩
    exact hsplits.scan_eq_ok hvalid position

theorem scan_eq_error_iff {position : Nat} {cs : List Char} {e : ParseError} :
    scan position cs = .error e ↔
      ∃ before piece after, Splits cs (before ++ (piece, .invalid) :: after) ∧ Valid before ∧
        e = .invalidToken (String.ofList piece) (position + byteLength (joined before)) := by
  constructor
  · intro h
    obtain ⟨pieces, hsplits⟩ := exists_splits cs
    rcases valid_or_exists_invalid pieces with hvalid | ⟨before, piece, after, rfl, hbefore⟩
    · cases h.symm.trans (hsplits.scan_eq_ok hvalid position)
    · exact ⟨before, piece, after, hsplits, hbefore,
        Except.error.inj (h.symm.trans (hsplits.scan_eq_error hbefore position))⟩
  · rintro ⟨before, piece, after, hsplits, hbefore, rfl⟩
    exact hsplits.scan_eq_error hbefore position

/-- A text has tokens exactly if the longest pieces it is cut into are all blanks and tokens, and
then it has the tokens among them. Otherwise the first piece that is none is the error, and the text
in front of that piece has tokens. -/
theorem tokenize_exact (source : List Char) :
    (∀ ts, tokenize source = .ok ts ↔
      ∃ pieces, Splits source pieces ∧ (∀ p ∈ pieces, p.2 ≠ .invalid) ∧ ts = placed 0 pieces) ∧
    ∀ e, tokenize source = .error e ↔
      ∃ before piece after, Splits source (before ++ (piece, .invalid) :: after) ∧
        source = joined before ++ piece ++ joined after ∧
        e = .invalidToken (String.ofList piece) (byteLength (joined before)) ∧
        (∀ p ∈ before, p.2 ≠ .invalid) ∧ tokenize (joined before) = .ok (placed 0 before) := by
  refine ⟨fun ts => scan_eq_ok_iff, fun e => scan_eq_error_iff.trans ?_⟩
  constructor
  · rintro ⟨before, piece, after, hsplits, hvalid, rfl⟩
    obtain ⟨hbefore, -, hsource⟩ := hsplits.of_append
    refine ⟨before, piece, after, hsplits, ?_, by rw [Nat.zero_add], hvalid,
      hbefore.scan_eq_ok hvalid 0⟩
    rw [hsource, List.append_assoc]
    rfl
  · rintro ⟨before, piece, after, hsplits, -, rfl, hvalid, -⟩
    exact ⟨before, piece, after, hsplits, hvalid, by rw [Nat.zero_add]⟩

end Token
end ComplexAlgebra
