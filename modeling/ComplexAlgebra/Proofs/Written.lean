import ComplexAlgebra.Proofs.Derivation

/-! What the trees of parsed texts look like: their constants are single numbers, and their
variables have admissible names and no coefficient. Where a text starts changes the positions of its
tokens and errors only, and blanks in front of it change no tree. -/
namespace ComplexAlgebra

theorem map_eq_ok {ε α β : Type} {f : α → β} {r : Except ε α} {b : β} (h : r.map f = .ok b) :
    ∃ a, r = .ok a ∧ f a = b := by
  cases r with
  | error e => cases h
  | ok a => exact ⟨a, rfl, Except.ok.inj h⟩

/-- The same token in a text that begins `n` bytes earlier. -/
def PlacedToken.shift (n : Nat) (t : PlacedToken) : PlacedToken := ⟨t.token, t.position + n⟩

namespace Token

/-- All letters among the tokens are names of variables. -/
def Lettered (ts : List Token) : Prop := ∀ name, letter name ∈ ts → isVariableName name = true

theorem Lettered.tail {t : Token} {ts : List Token} (h : Lettered (t :: ts)) : Lettered ts :=
  fun name hname => h name (List.mem_cons_of_mem t hname)

theorem isVariableName_of_ofChar? {c name : Char} (h : ofChar? c = some (letter name)) :
    isVariableName name = true := by
  unfold ofChar? at h
  split at h
  all_goals try cases h
  split at h
  · next hc =>
    cases h
    exact hc
  · cases h

theorem lettered_scan (position : Nat) (cs : List Char) :
    ∀ ts, scan position cs = .ok ts → Lettered (ts.map (·.token)) := by
  fun_induction scan position cs with
  | case1 =>
    rintro ts ⟨⟩
    simp [Lettered]
  | case2 position c cs _ ih => exact ih
  | case3 position c cs _ _ run numeral _ ih =>
    intro ts h
    obtain ⟨us, hus, rfl⟩ := map_eq_ok h
    intro name hname
    rcases List.mem_cons.1 hname with heq | hmem
    · cases heq
    · exact ih us hus name hmem
  | case4 => rintro ts ⟨⟩
  | case5 position c cs _ _ token htoken ih =>
    intro ts h
    obtain ⟨us, hus, rfl⟩ := map_eq_ok h
    intro name hname
    rcases List.mem_cons.1 hname with heq | hmem
    · exact isVariableName_of_ofChar? (htoken.trans (congrArg some heq.symm))
    · exact ih us hus name hmem
  | case6 => rintro ts ⟨⟩

/-- What is scanned in a text that begins `n` bytes earlier. -/
def shiftScan (n : Nat) :
    Except ParseError (List PlacedToken) → Except ParseError (List PlacedToken)
  | .ok ts => .ok (ts.map (·.shift n))
  | .error e => .error (e.shift n)

theorem shiftScan_map (n : Nat) (t : PlacedToken) (r : Except ParseError (List PlacedToken)) :
    shiftScan n (r.map (t :: ·)) = (shiftScan n r).map (t.shift n :: ·) := by
  cases r <;> rfl

theorem scan_shift (n position : Nat) (cs : List Char) :
    scan (position + n) cs = shiftScan n (scan position cs) := by
  fun_induction scan position cs with
  | case1 => exact scan_nil _
  | case2 position c cs hb ih => rw [scan, if_pos hb, Nat.add_right_comm, ih]
  | case3 position c cs hb hd run numeral hn ih =>
    rw [scan, if_neg hb, if_pos hd]
    simp only [hn, run]
    rw [Nat.add_right_comm, ih, shiftScan_map]
    rfl
  | case4 position c cs hb hd run hn =>
    rw [scan, if_neg hb, if_pos hd]
    simp only [hn, run]
    rfl
  | case5 position c cs hb hd token ht ih =>
    rw [scan, if_neg hb, if_neg hd, ht]
    simp only
    rw [Nat.add_right_comm, ih, shiftScan_map]
    rfl
  | case6 position c cs hb hd ht =>
    rw [scan, if_neg hb, if_neg hd, ht]
    rfl

theorem scan_moved (position other : Nat) (cs : List Char) {ts : List PlacedToken}
    (h : scan position cs = .ok ts) :
    ∃ us, scan other cs = .ok us ∧ us.map (·.token) = ts.map (·.token) := by
  have hposition := scan_shift position 0 cs
  have hother := scan_shift other 0 cs
  rw [Nat.zero_add] at hposition hother
  rw [h] at hposition
  cases hscan : scan 0 cs with
  | error e =>
    rw [hscan] at hposition
    cases hposition
  | ok us =>
    rw [hscan] at hposition hother
    cases hposition
    exact ⟨_, hother, by simp [PlacedToken.shift]⟩

end Token

namespace Expr

variable {K : Type} [Arithmetic K]

/-- The trees of parsed texts. -/
inductive Written : Expr K → Prop
  | number (x : K) : Written (.number x)
  | var {name : Char} (h : isVariableName name = true) : Written (.var name 1)
  | op (o : Operator) {l r : Expr K} (hl : Written l) (hr : Written r) : Written (.op o l r)

theorem Written.isVariableName {e : Expr K} (h : e.Written) {name : Char}
    (hname : name ∈ e.names) : isVariableName name = true := by
  induction h with
  | number x => simp [names] at hname
  | var hv =>
    rw [names, List.mem_singleton] at hname
    exact hname ▸ hv
  | op o hl hr ihl ihr => exact (List.mem_append.1 hname).elim ihl ihr

end Expr

namespace Grammar

variable {K : Type} [Arithmetic K]

/-- The tree a rule continues behind is written. -/
def Level.Written : Level K → Prop
  | productTail left => left.Written
  | additionTail left => left.Written
  | _ => True

theorem written_of_derives {level : Level K} {ts rest : List Token} {e : Expr K}
    (h : Derives level ts e rest) (hlevel : level.Written) (hts : Token.Lettered ts) :
    e.Written ∧ Token.Lettered rest := by
  induction h with
  | number numeral rest => exact ⟨.number _, hts.tail⟩
  | imaginaryUnit rest => exact ⟨.number _, hts.tail⟩
  | euler rest => exact ⟨.number _, hts.tail⟩
  | pi rest => exact ⟨.number _, hts.tail⟩
  | letter name rest => exact ⟨.var (hts name List.mem_cons_self), hts.tail⟩
  | minus h ih =>
    obtain ⟨he, hrest⟩ := ih trivial hts.tail
    exact ⟨.op _ (.number 0) he, hrest⟩
  | bracketed h ih =>
    obtain ⟨he, hrest⟩ := ih trivial hts.tail
    exact ⟨he, hrest.tail⟩
  | base h _ ih => exact ih trivial hts
  | power hb he ihb ihe =>
    obtain ⟨hbase, hafter⟩ := ihb trivial hts
    obtain ⟨hexp, hrest⟩ := ihe trivial hafter.tail
    exact ⟨.op _ hbase hexp, hrest⟩
  | exponent h _ ih => exact ih trivial hts
  | exponentTimes h _ h' ih ih' =>
    obtain ⟨he, hafter⟩ := ih trivial hts
    obtain ⟨he', hrest⟩ := ih' trivial hafter
    exact ⟨.op _ he he', hrest⟩
  | product h h' ih ih' =>
    obtain ⟨he, hafter⟩ := ih trivial hts
    exact ih' he hafter
  | productEnd _ _ => exact ⟨hlevel, hts⟩
  | factor ho h h' ih ih' =>
    obtain ⟨he, hafter⟩ := ih trivial hts.tail
    exact ih' (.op _ hlevel he) hafter
  | productTimes ho ht h ih =>
    obtain ⟨he, hrest⟩ := ih trivial hts
    exact ⟨.op _ hlevel he, hrest⟩
  | addition h h' ih ih' =>
    obtain ⟨he, hafter⟩ := ih trivial hts
    exact ih' he hafter
  | additionEnd _ => exact ⟨hlevel, hts⟩
  | summand ho h h' ih ih' =>
    obtain ⟨he, hafter⟩ := ih trivial hts.tail
    exact ih' (.op _ hlevel he) hafter
  | expression h _ ih => exact ih trivial hts
  | expressionTimes h _ h' ih ih' =>
    obtain ⟨he, hafter⟩ := ih trivial hts
    obtain ⟨he', hrest⟩ := ih' trivial hafter
    exact ⟨.op _ he he', hrest⟩

end Grammar

section Parse

variable {K : Type} [Arithmetic K]

theorem parse_eq_ok_iff {source : List Char} {e : Expr K} :
    parse source = .ok e ↔ ∃ ts, Token.tokenize source = .ok ts ∧
      Grammar.Derives .expression (ts.map (·.token)) e [] := by
  unfold parse
  cases Token.tokenize source with
  | error e => simp
  | ok ts => simp [Grammar.parseTokens_eq_ok_iff]

theorem written_of_parse {source : List Char} {e : Expr K} (h : parse source = .ok e) :
    e.Written := by
  obtain ⟨ts, hts, hd⟩ := parse_eq_ok_iff.1 h
  exact (Grammar.written_of_derives hd trivial (Token.lettered_scan 0 source ts hts)).1

theorem parse_blank {blank : Char} (hblank : Token.isBlank blank = true) {source : List Char}
    {e : Expr K} (h : parse source = .ok e) : parse (blank :: source) = .ok e := by
  obtain ⟨ts, hts, hd⟩ := parse_eq_ok_iff.1 h
  obtain ⟨us, hus, heq⟩ := Token.scan_moved 0 (0 + blank.utf8Size) source hts
  refine parse_eq_ok_iff.2 ⟨us, ?_, heq ▸ hd⟩
  rw [Token.tokenize, Token.scan, if_pos hblank, hus]

end Parse
end ComplexAlgebra
