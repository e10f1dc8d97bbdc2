import ComplexAlgebra.Proofs.Progress
import ComplexAlgebra.Proofs.Written

/-! Where a parse fails. Every rule of the grammar moves on as the machine for beginnings of
expressions does, and it fails exactly at a token that the machine has no step for, or at the end.
So the tokens before the position of an error begin an expression, and with the token there they do
not. -/
namespace ComplexAlgebra

namespace Grammar

open Progress

/-- The machine reads the tokens in front of `rest`. -/
inductive Runs : Progress → List PlacedToken → Progress → List PlacedToken → Prop
  | refl (p : Progress) (ts : List PlacedToken) : Runs p ts p ts
  | step {p q r : Progress} {t : PlacedToken} {ts rest : List PlacedToken}
    (h : p.next? t.token = some q) (h' : Runs q ts r rest) : Runs p (t :: ts) r rest

theorem Runs.trans {p q r : Progress} {ts us rest : List PlacedToken} (h : Runs p ts q us)
    (h' : Runs q us r rest) : Runs p ts r rest := by
  induction h with
  | refl => exact h'
  | step hstep _ ih => exact .step hstep (ih h')

theorem Runs.exists_after? {p q : Progress} {ts rest : List PlacedToken} (h : Runs p ts q rest) :
    ∃ read, ts = read ++ rest ∧ p.after? (read.map (·.token)) = some q := by
  induction h with
  | refl p ts => exact ⟨[], rfl, rfl⟩
  | @step p q r t ts rest hstep _ ih =>
    obtain ⟨read, rfl, hread⟩ := ih
    refine ⟨t :: read, rfl, ?_⟩
    rw [List.map_cons, after?, hstep]
    exact hread

/-- The error is where the machine has read all tokens or has no step for the next one. -/
def Stops (stop : Nat) (p : Progress) (ts : List PlacedToken) (e : ParseError) : Prop :=
  ∃ q rest, Runs p ts q rest ∧ e.position = nextPosition stop rest ∧
    ∀ t after, rest = t :: after → q.next? t.token = none

theorem Stops.of_runs {stop : Nat} {p q : Progress} {ts rest : List PlacedToken} {e : ParseError}
    (h : Runs p ts q rest) (h' : Stops stop q rest e) : Stops stop p ts e := by
  obtain ⟨r, us, hruns, hend⟩ := h'
  exact ⟨r, us, h.trans hruns, hend⟩

theorem stops_end {stop : Nat} {p : Progress} {e : ParseError} (h : e.position = stop) :
    Stops stop p [] e :=
  ⟨p, [], .refl _ _, h, nofun⟩

theorem stops_token {stop : Nat} {p : Progress} {t : PlacedToken} {after : List PlacedToken}
    {e : ParseError} (h : e.position = t.position) (ht : p.next? t.token = none) :
    Stops stop p (t :: after) e := by
  refine ⟨p, _, .refl _ _, h, ?_⟩
  rintro _ _ ⟨⟩
  exact ht

/-- A token that begins a value is read behind an atom as it is where one is needed. -/
theorem Runs.ended {opened : List Bracket} {q : Progress} {ts rest : List PlacedToken}
    (h : Runs ⟨opened, false⟩ ts q rest) (hts : startsValue ts = true) :
    (q = ⟨opened, false⟩ ∧ rest = ts) ∨ Runs ⟨opened, true⟩ ts q rest := by
  cases h with
  | refl => exact .inl ⟨rfl, rfl⟩
  | step hstep h' =>
    obtain ⟨r, hfalse, htrue⟩ := next?_startsValue hts opened false true
    cases hstep.symm.trans hfalse
    exact .inr (.step htrue h')

section Agrees

variable {K : Type} {n stop : Nat} {p : Progress} {ts : List PlacedToken}
  {r : Except ParseError (Parsed K n)}

/-- A rule reads tokens up to the end of an atom, with the brackets open that were open before, or
it fails where the machine stops. -/
def Agrees (stop : Nat) (p : Progress) (ts : List PlacedToken) :
    Except ParseError (Parsed K n) → Prop
  | .ok r => Runs p ts ⟨p.opened, true⟩ r.rest
  | .error e => Stops stop p ts e

theorem Agrees.ok (h : Agrees stop p ts r) {q : Parsed K n} (hr : r = .ok q) :
    Runs p ts ⟨p.opened, true⟩ q.rest := by
  rw [hr] at h
  exact h

theorem Agrees.error (h : Agrees stop p ts r) {e : ParseError} (hr : r = .error e) :
    Stops stop p ts e := by
  rw [hr] at h
  exact h

theorem Agrees.ended {opened : List Bracket} (h : Agrees stop ⟨opened, false⟩ ts r)
    (hts : startsValue ts = true) : Agrees stop ⟨opened, true⟩ ts r := by
  cases r with
  | ok q =>
    rcases Runs.ended h hts with ⟨hq, -⟩ | hruns
    · cases hq
    · exact hruns
  | error e =>
    obtain ⟨q, rest, hruns, hposition, hnone⟩ := h
    rcases hruns.ended hts with ⟨rfl, rfl⟩ | hruns
    · cases rest with
      | nil => cases hts
      | cons t after =>
        obtain ⟨r, hfalse, -⟩ := next?_startsValue hts opened false true
        cases (hnone t after rfl).symm.trans hfalse
    · exact ⟨q, rest, hruns, hposition, hnone⟩

end Agrees

section Rules

variable {K : Type} [Arithmetic K]

/-- No rule can go on with what a rule leaves over, as far as the rule looks ahead. -/
def Level.Leaves : Level K → List Token → List Token → Prop
  | value, _, _ => True
  | power, _, rest => ∀ after, rest ≠ .caret :: after
  | exponent, _, rest => ¬ Continues rest ∧ ∀ after, rest ≠ .caret :: after
  | product, _, rest => Ends rest
  | productTail _, ts, rest => (∀ after, ts ≠ .caret :: after) → Ends rest
  | additionTail _, ts, rest =>
    Ends ts → Ends rest ∧ ∀ t after, rest = t :: after → t.additive? = none
  | addition, _, rest | expression, _, rest =>
    Ends rest ∧ ∀ t after, rest = t :: after → t.additive? = none

theorem leaves_of_derives {level : Level K} {ts rest : List Token} {e : Expr K}
    (h : Derives level ts e rest) : level.Leaves ts rest := by
  induction h with
  | base _ hrest => exact hrest
  | power _ _ _ ihe => exact ihe.2
  | exponent _ hrest ih => exact ⟨hrest, ih⟩
  | exponentTimes _ _ _ _ ih' => exact ⟨ih'.no_value, ih'.no_exponent⟩
  | product _ _ ih ih' => exact ih' ih
  | productEnd hrest ho => exact fun hcaret => ⟨hrest, ho, hcaret⟩
  | factor _ _ _ ih ih' => exact fun _ => ih' ih
  | productTimes _ _ _ ih => exact fun _ => ih
  | addition _ _ ih ih' => exact ih' ih
  | additionEnd ho => exact fun hends => ⟨hends, ho⟩
  | summand _ _ _ ih ih' => exact fun _ => ih' ih
  | expression _ _ ih => exact ih
  | expressionTimes _ _ _ _ ih' => exact ih'
  | _ => trivial

theorem exists_closing_of_expression {stop : Nat} {ts : List PlacedToken} {p : Parsed K ts.length}
    (h : expression stop ts = .ok p) {t : PlacedToken} {after : List PlacedToken}
    (hrest : p.rest = t :: after) : ∃ bracket, t.token = .closing bracket := by
  have hleaves : Level.Leaves (K := K) .expression _ _ :=
    leaves_of_derives (derives_expression stop ts h)
  rw [hrest, List.map_cons] at hleaves
  obtain ⟨hends, hadd⟩ := hleaves
  have hvalue : t.token.startsValue = false :=
    Bool.eq_false_iff.2 fun ht => hends.no_value ⟨_, _, rfl, ht⟩
  have hfactor := hends.no_factor _ _ rfl
  have hsummand := hadd _ _ rfl
  have hcaret := hends.no_exponent
  cases htoken : t.token with
  | closing bracket => exact ⟨bracket, rfl⟩
  | caret => exact absurd (by rw [htoken]) (hcaret (after.map (·.token)))
  | _ => simp_all [Token.startsValue, Token.multiplicative?, Token.additive?]

mutual

theorem agrees_value (stop : Nat) (opened : List Bracket) (ts : List PlacedToken) :
    Agrees stop ⟨opened, false⟩ ts (value (K := K) stop ts) := by
  match ts with
  | [] =>
    rw [value]
    exact stops_end rfl
  | ⟨token, position⟩ :: rest =>
    cases token with
    | number | imaginaryUnit | euler | pi | letter =>
      rw [value]
      exact .step rfl (.refl _ _)
    | plus | star | slash | caret =>
      rw [value]
      exact stops_token rfl rfl
    | closing bracket =>
      rw [value]
      exact stops_token rfl (next?_closing_eq_none nofun)
    | minus =>
      have hminus : Runs ⟨opened, false⟩ (⟨.minus, position⟩ :: rest) ⟨opened, false⟩ rest :=
        .step rfl (.refl _ _)
      have hvalue := agrees_value stop opened rest
      rw [value]
      split
      · next e he => exact (hvalue.error he).of_runs hminus
      · next q hq => exact hminus.trans (hvalue.ok hq)
    | opening bracket =>
      have hopening : Runs ⟨opened, false⟩ (⟨.opening bracket, position⟩ :: rest)
          ⟨bracket :: opened, false⟩ rest := .step rfl (.refl _ _)
      have hinside := agrees_expression stop (bracket :: opened) rest
      rw [value]
      split
      · next e he => exact (hinside.error he).of_runs hopening
      · next q hq =>
        have hread := hopening.trans (hinside.ok hq)
        -- the expression inside ends at a closing bracket, which may be of another kind, or nowhere
        split
        · next t after hrest =>
          rw [hrest] at hread
          split
          · next ht =>
            refine hread.trans (.step ?_ (.refl _ _))
            rw [ht]
            exact next?_closing bracket opened
          · next ht =>
            obtain ⟨other, hother⟩ := exists_closing_of_expression hq hrest
            refine (stops_token rfl ?_).of_runs hread
            rw [hother]
            refine next?_closing_eq_none ?_
            rintro _ ⟨⟩
            exact ht hother
        · next hrest =>
          rw [hrest] at hread
          exact (stops_end rfl).of_runs hread
termination_by 8 * ts.length

theorem agrees_power (stop : Nat) (opened : List Bracket) (ts : List PlacedToken) :
    Agrees stop ⟨opened, false⟩ ts (power (K := K) stop ts) := by
  have hvalue := agrees_value stop opened ts
  unfold power
  split
  · next e he => exact hvalue.error he
  · next q hq =>
    have hbase := hvalue.ok hq
    split
    · next position after hrest =>
      have hlt := q.lt_of_rest_eq_cons hrest (Nat.le_refl _)
      rw [hrest] at hbase
      have hcaret : Runs ⟨opened, false⟩ ts ⟨opened, false⟩ after :=
        hbase.trans (.step rfl (.refl _ _))
      have hexponent := agrees_exponent stop opened after
      split
      · next e he => exact (hexponent.error he).of_runs hcaret
      · next r hr => exact hcaret.trans (hexponent.ok hr)
    · exact hbase
termination_by 8 * ts.length + 1

theorem agrees_exponent (stop : Nat) (opened : List Bracket) (ts : List PlacedToken) :
    Agrees stop ⟨opened, false⟩ ts (exponent (K := K) stop ts) := by
  have hpower := agrees_power stop opened ts
  unfold exponent
  split
  · next e he => exact hpower.error he
  · next q hq =>
    have hlt := q.rest_lt
    have hread := hpower.ok hq
    split
    · next hs =>
      have hproduct := (agrees_product stop opened q.rest).ended hs
      split
      · next e he => exact (hproduct.error he).of_runs hread
      · next r hr =>
        have hfactors := hproduct.ok hr
        exact hread.trans hfactors
    · exact hread
termination_by 8 * ts.length + 2

theorem agrees_product (stop : Nat) (opened : List Bracket) (ts : List PlacedToken) :
    Agrees stop ⟨opened, false⟩ ts (product (K := K) stop ts) := by
  have hpower := agrees_power stop opened ts
  unfold product
  split
  · next e he => exact hpower.error he
  · next q hq =>
    have hlt := q.rest_lt
    have hread := hpower.ok hq
    have htail := agrees_productTail stop opened q.tree q.rest
    split
    · next e he => exact (htail.error he).of_runs hread
    · next r hr => exact hread.trans (htail.ok hr)
termination_by 8 * ts.length + 3

theorem agrees_productTail (stop : Nat) (opened : List Bracket) (left : Expr K)
    (ts : List PlacedToken) : Agrees stop ⟨opened, true⟩ ts (productTail stop left ts) := by
  match ts with
  | [] =>
    rw [productTail]
    exact .refl _ _
  | t :: rest =>
    unfold productTail
    split
    · next o ho =>
      have hoperator : Runs ⟨opened, true⟩ (t :: rest) ⟨opened, false⟩ rest :=
        .step (next?_operator (by simp [Token.operator?_of_multiplicative? ho]) opened) (.refl _ _)
      have hpower := agrees_power stop opened rest
      split
      · next e he => exact (hpower.error he).of_runs hoperator
      · next q hq =>
        have hlt := q.rest_lt
        have hread := hoperator.trans (hpower.ok hq)
        have htail := agrees_productTail stop opened (.op o left q.tree) q.rest
        split
        · next e he => exact (htail.error he).of_runs hread
        · next r hr => exact hread.trans (htail.ok hr)
    · split
      · next hs =>
        have hproduct := (agrees_product stop opened (t :: rest)).ended hs
        split
        · next e he => exact hproduct.error he
        · next q hq =>
          have hread := hproduct.ok hq
          exact hread
      · exact .refl _ _
termination_by 8 * ts.length + 4

theorem agrees_addition (stop : Nat) (opened : List Bracket) (ts : List PlacedToken) :
    Agrees stop ⟨opened, false⟩ ts (addition (K := K) stop ts) := by
  have hproduct := agrees_product stop opened ts
  unfold addition
  split
  · next e he => exact hproduct.error he
  · next q hq =>
    have hlt := q.rest_lt
    have hread := hproduct.ok hq
    have htail := agrees_additionTail stop opened q.tree q.rest
    split
    · next e he => exact (htail.error he).of_runs hread
    · next r hr => exact hread.trans (htail.ok hr)
termination_by 8 * ts.length + 5

theorem agrees_additionTail (stop : Nat) (opened : List Bracket) (left : Expr K)
    (ts : List PlacedToken) : Agrees stop ⟨opened, true⟩ ts (additionTail stop left ts) := by
  match ts with
  | [] =>
    rw [additionTail]
    exact .refl _ _
  | t :: rest =>
    unfold additionTail
    split
    · next o ho =>
      have hoperator : Runs ⟨opened, true⟩ (t :: rest) ⟨opened, false⟩ rest :=
        .step (next?_operator (by simp [Token.operator?_of_additive? ho]) opened) (.refl _ _)
      have hproduct := agrees_product stop opened rest
      split
      · next e he => exact (hproduct.error he).of_runs hoperator
      · next q hq =>
        have hlt := q.rest_lt
        have hread := hoperator.trans (hproduct.ok hq)
        have htail := agrees_additionTail stop opened (.op o left q.tree) q.rest
        split
        · next e he => exact (htail.error he).of_runs hread
        · next r hr => exact hread.trans (htail.ok hr)
    · exact .refl _ _
termination_by 8 * ts.length + 5

theorem agrees_expression (stop : Nat) (opened : List Bracket) (ts : List PlacedToken) :
    Agrees stop ⟨opened, false⟩ ts (expression (K := K) stop ts) := by
  have haddition := agrees_addition stop opened ts
  unfold expression
  split
  · next e he => exact haddition.error he
  · next q hq =>
    have hlt := q.rest_lt
    have hread := haddition.ok hq
    split
    · next hs =>
      have hexpression := (agrees_expression stop opened q.rest).ended hs
      split
      · next e he => exact (hexpression.error he).of_runs hread
      · next r hr =>
        have hfactor := hexpression.ok hr
        exact hread.trans hfactor
    · exact hread
termination_by 8 * ts.length + 6

end

/-- The parser fails where the machine stops. -/
theorem stops_of_parseTokens {stop : Nat} {ts : List PlacedToken} {e : ParseError}
    (h : parseTokens (K := K) stop ts = .error e) : Stops stop start ts e := by
  have hagrees := agrees_expression (K := K) stop [] ts
  unfold parseTokens at h
  split at h
  · next e' he =>
    cases h
    exact hagrees.error he
  · next p hp =>
    split at h
    · cases h
    · next t after hrest =>
      obtain ⟨bracket, ht⟩ := exists_closing_of_expression hp hrest
      have hread := hagrees.ok hp
      rw [hrest] at hread
      cases h
      refine (stops_token rfl ?_).of_runs hread
      rw [ht]
      rfl

/-- The parser accepts these tokens, wherever they stand. -/
def Accepts (K : Type) [Arithmetic K] (us : List Token) : Prop :=
  ∃ (stop : Nat) (qs : List PlacedToken) (e : Expr K),
    qs.map (·.token) = us ∧ parseTokens stop qs = .ok e

/-- Some sequence that the parser accepts begins with these tokens. -/
def Viable (K : Type) [Arithmetic K] (ts : List Token) : Prop :=
  ∃ us, Accepts K (ts ++ us)

theorem accepts_iff_generates {us : List Token} : Accepts K us ↔ Generates .sentence us := by
  constructor
  · rintro ⟨stop, qs, e, rfl, h⟩
    obtain ⟨first, js, hspans⟩ :=
      exists_derives_iff_readable.1 ⟨e, (parseTokens_eq_ok_iff stop qs e).1 h⟩
    exact generates_of_spans hspans
  · intro h
    obtain ⟨e, he⟩ := exists_derives_iff_readable.2 (readable_of_generates (K := K) h)
    have hplaced : (us.map fun t => (⟨t, 0⟩ : PlacedToken)).map (·.token) = us := by
      rw [List.map_map]
      exact List.map_id us
    refine ⟨0, _, e, hplaced, (parseTokens_eq_ok_iff 0 _ e).2 ?_⟩
    rwa [hplaced]

theorem viable_iff_after? {ts : List Token} : Viable K ts ↔ ∃ p, start.after? ts = some p := by
  constructor
  · rintro ⟨us, h⟩
    exact exists_after?_of_generates (accepts_iff_generates.1 h)
  · rintro ⟨p, hp⟩
    exact ⟨_, accepts_iff_generates.2 (generates_of_after? hp)⟩

end Rules

section Positions

variable {start stop : Nat} {read rest ts : List PlacedToken}

/-- The tokens stand one behind the other, from one offset on and before another. -/
def Ordered (start stop : Nat) : List PlacedToken → Prop
  | [] => start ≤ stop
  | t :: ts => start ≤ t.position ∧ Ordered (t.position + 1) stop ts

theorem Ordered.mono (h : Ordered start stop ts) {start' : Nat} (hle : start' ≤ start) :
    Ordered start' stop ts := by
  cases ts with
  | nil => exact Nat.le_trans hle h
  | cons t ts => exact ⟨Nat.le_trans hle h.1, h.2⟩

theorem Ordered.le_stop (h : Ordered start stop ts) : start ≤ stop := by
  induction ts generalizing start with
  | nil => exact h
  | cons t ts ih => exact Nat.le_trans h.1 (Nat.le_of_succ_le (ih h.2))

theorem Ordered.le_position (h : Ordered start stop ts) {t : PlacedToken} (ht : t ∈ ts) :
    start ≤ t.position := by
  induction ts generalizing start with
  | nil => cases ht
  | cons u us ih =>
    rcases List.mem_cons.1 ht with rfl | ht
    · exact h.1
    · exact ih (h.2.mono (Nat.le_succ_of_le h.1)) ht

theorem Ordered.of_append (h : Ordered start stop (read ++ rest)) :
    ∃ middle, start ≤ middle ∧ (∀ t ∈ read, t.position < middle) ∧ Ordered middle stop rest := by
  induction read generalizing start with
  | nil => exact ⟨start, Nat.le_refl _, nofun, h⟩
  | cons t read ih =>
    obtain ⟨middle, hmiddle, hread, hrest⟩ := ih h.2
    exact ⟨middle, Nat.le_trans (Nat.le_succ_of_le h.1) hmiddle,
      List.forall_mem_cons.2 ⟨hmiddle, hread⟩, hrest⟩

def tokensBefore (offset : Nat) (ts : List PlacedToken) : List Token :=
  (ts.filter (·.position < offset)).map (·.token)

theorem tokensBefore_append {offset : Nat} (hread : ∀ t ∈ read, t.position < offset)
    (hrest : ∀ t ∈ rest, offset ≤ t.position) :
    tokensBefore offset (read ++ rest) = read.map (·.token) := by
  have hkept : read.filter (·.position < offset) = read := by simpa using hread
  have hdropped : rest.filter (·.position < offset) = [] := by simpa using hrest
  rw [tokensBefore, List.filter_append, hkept, hdropped, List.append_nil]

theorem Ordered.tokensBefore_nextPosition (h : Ordered start stop (read ++ rest)) :
    tokensBefore (nextPosition stop rest) (read ++ rest) = read.map (·.token) := by
  obtain ⟨middle, -, hread, hrest⟩ := h.of_append
  cases rest with
  | nil => exact tokensBefore_append (fun t ht => Nat.lt_of_lt_of_le (hread t ht) hrest) nofun
  | cons t after =>
    have hfrom : Ordered t.position stop (t :: after) := ⟨Nat.le_refl _, hrest.2⟩
    exact tokensBefore_append (fun u hu => Nat.lt_of_lt_of_le (hread u hu) hrest.1)
      fun u hu => hfrom.le_position hu

theorem Ordered.tokensBefore_succ {t : PlacedToken} {after : List PlacedToken}
    (h : Ordered start stop (read ++ t :: after)) :
    tokensBefore (t.position + 1) (read ++ t :: after) = read.map (·.token) ++ [t.token] := by
  obtain ⟨middle, -, hread, hle, hafter⟩ := h.of_append
  have hreadt : ∀ u ∈ read ++ [t], u.position < t.position + 1 :=
    List.forall_mem_append.2 ⟨fun u hu => Nat.lt_succ_of_lt (Nat.lt_of_lt_of_le (hread u hu) hle),
      List.forall_mem_singleton.2 (Nat.lt_succ_self _)⟩
  rw [List.append_cons, tokensBefore_append hreadt fun u hu => hafter.le_position hu]
  simp

end Positions

end Grammar

namespace Token

theorem ordered_scan (position : Nat) (cs : List Char) :
    ∀ ts, scan position cs = .ok ts → Grammar.Ordered position (position + byteLength cs) ts := by
  fun_induction scan position cs with
  | case1 =>
    rintro ts ⟨⟩
    exact Nat.le_refl _
  | case2 position c cs _ ih =>
    intro ts h
    have hts := ih ts h
    rw [Nat.add_assoc] at hts
    exact hts.mono (Nat.le_add_right _ _)
  | case3 position c cs _ _ run numeral _ ih =>
    intro ts h
    obtain ⟨us, hus, rfl⟩ := map_eq_ok h
    have hlength : byteLength run + byteLength (cs.dropWhile isNumeral) = byteLength (c :: cs) := by
      rw [← byteLength_append, List.cons_append, List.takeWhile_append_dropWhile]
    have hrun : 0 < byteLength run := Nat.lt_of_lt_of_le c.utf8Size_pos (Nat.le_add_right _ _)
    have hts := ih us hus
    rw [Nat.add_assoc, hlength] at hts
    exact ⟨Nat.le_refl _, hts.mono (Nat.add_lt_add_left hrun position)⟩
  | case4 => rintro ts ⟨⟩
  | case5 position c cs _ _ token _ ih =>
    intro ts h
    obtain ⟨us, hus, rfl⟩ := map_eq_ok h
    have hts := ih us hus
    rw [Nat.add_assoc] at hts
    exact ⟨Nat.le_refl _, hts.mono (Nat.add_lt_add_left c.utf8Size_pos position)⟩
  | case6 => rintro ts ⟨⟩

end Token

section Parse

open Grammar Progress

variable {K : Type} [Arithmetic K] {source : List Char} {ts : List PlacedToken} {e : ParseError}

/-- Where a text of tokens is no expression, its tokens before the error begin an expression. With
the token at the error they do not, or the error is at the end and only more tokens can help. -/
theorem parse_error_position (hts : Token.tokenize source = .ok ts)
    (h : parse (K := K) source = .error e) :
    Viable K (tokensBefore e.position ts) ∧
      ((e.position < byteLength source ∧ (∃ t ∈ ts, t.position = e.position) ∧
          ¬ Viable K (tokensBefore (e.position + 1) ts)) ∨
        (e.position = byteLength source ∧
          ∃ us, us ≠ [] ∧ Accepts K (ts.map (·.token) ++ us))) := by
  have hordered := Token.ordered_scan 0 source ts hts
  rw [Nat.zero_add] at hordered
  have herror : parseTokens (K := K) (byteLength source) ts = .error e := by
    rwa [parse, hts] at h
  obtain ⟨p, rest, hruns, hposition, hnone⟩ := stops_of_parseTokens herror
  obtain ⟨read, rfl, hread⟩ := hruns.exists_after?
  rw [hposition, hordered.tokensBefore_nextPosition]
  refine ⟨viable_iff_after?.2 ⟨p, hread⟩, ?_⟩
  cases rest with
  | nil =>
    have hgoes := generates_of_after? hread
    rw [List.append_nil]
    exact .inr ⟨rfl, _, List.cons_ne_nil _ _, accepts_iff_generates.2 hgoes⟩
  | cons t after =>
    obtain ⟨middle, -, -, -, hafter⟩ := hordered.of_append
    refine .inl ⟨hafter.le_stop, ⟨t, by simp, rfl⟩, ?_⟩
    have hstuck : start.after? (read.map (·.token) ++ [t.token]) = none := by
      rw [after?_append, hread, Option.bind_some, after?, hnone t after rfl]
      rfl
    rw [nextPosition, hordered.tokensBefore_succ, viable_iff_after?, hstuck]
    simp

/-- `x*(y` is no expression but begins one, and `x*(y]` does not. -/
theorem parse_error_position_bracket :
    (parse (K := FloatNumber) "x*(y".toList = .error (.unclosed .round 4) ∧
      ∃ us, us ≠ [] ∧
        Accepts FloatNumber ([.letter 'x', .star, .opening .round, .letter 'y'] ++ us)) ∧
    parse (K := FloatNumber) "x*(y]".toList = .error (.unclosed .round 4) ∧
      ¬ Viable FloatNumber
        [.letter 'x', .star, .opening .round, .letter 'y', .closing .square] := by
  have hopen : Token.tokenize "x*(y".toList =
      .ok [⟨.letter 'x', 0⟩, ⟨.star, 1⟩, ⟨.opening .round, 2⟩, ⟨.letter 'y', 3⟩] := by
    simp [Token.tokenize, Token.scan, Token.isBlank, Token.ofChar?, isVariableName, Except.map]
    decide
  have hwrong : Token.tokenize "x*(y]".toList =
      .ok [⟨.letter 'x', 0⟩, ⟨.star, 1⟩, ⟨.opening .round, 2⟩, ⟨.letter 'y', 3⟩,
        ⟨.closing .square, 4⟩] := by
    simp [Token.tokenize, Token.scan, Token.isBlank, Token.ofChar?, isVariableName, Except.map]
    decide
  have hfour : byteLength "x*(y".toList = 4 := by decide
  have hfive : byteLength "x*(y]".toList = 5 := by decide
  have herror : parse (K := FloatNumber) "x*(y".toList = .error (.unclosed .round 4) := by
    simp only [parse, hopen, hfour]
    cbv
  have herror' : parse (K := FloatNumber) "x*(y]".toList = .error (.unclosed .round 4) := by
    simp only [parse, hwrong, hfive]
    cbv
  obtain ⟨-, ⟨hlt, -⟩ | ⟨-, hproper⟩⟩ := parse_error_position hopen herror
  · exact absurd (hfour ▸ hlt) (Nat.lt_irrefl 4)
  obtain ⟨-, ⟨-, -, hnot⟩ | ⟨hend, -⟩⟩ := parse_error_position hwrong herror'
  · exact ⟨⟨herror, hproper⟩, herror', hnot⟩
  · exact absurd (hend.trans hfive) (by decide)

end Parse

end ComplexAlgebra
