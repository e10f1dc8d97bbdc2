import ComplexAlgebra.Proofs.Reading

/-! The beginnings of expressions. While the tokens of an expression are read from the left, all
that counts for the next one is which brackets are open and whether an atom has just ended. A
machine with this memory gets through exactly the sequences that some expression begins with. -/
namespace ComplexAlgebra

/-- What has been read of an expression: the open brackets, the innermost one first, and whether the
last token ended an atom. -/
structure Progress where
  opened : List Bracket
  ended : Bool

namespace Progress

def start : Progress := ⟨[], false⟩

/-- The progress after one more token, unless no expression goes on with it. A minus and whatever
begins a value can stand anywhere. -/
def next? (p : Progress) : Token → Option Progress
  | .number _ | .imaginaryUnit | .euler | .pi | .letter _ => some ⟨p.opened, true⟩
  | .minus => some ⟨p.opened, false⟩
  | .opening bracket => some ⟨bracket :: p.opened, false⟩
  | .plus | .star | .slash | .caret => if p.ended then some ⟨p.opened, false⟩ else none
  | .closing bracket =>
    match p with
    | ⟨innermost :: opened, true⟩ => if bracket = innermost then some ⟨opened, true⟩ else none
    | _ => none

def after? (p : Progress) : List Token → Option Progress
  | [] => some p
  | t :: ts => (p.next? t).bind (·.after? ts)

theorem after?_append (p : Progress) (ts us : List Token) :
    p.after? (ts ++ us) = (p.after? ts).bind (·.after? us) := by
  induction ts generalizing p with
  | nil => rfl
  | cons t ts ih =>
    rw [List.cons_append, after?, after?, Option.bind_assoc]
    congr 1
    funext q
    exact ih q

theorem next?_operator {t : Token} (ht : t.operator? ≠ none) (opened : List Bracket) :
    next? ⟨opened, true⟩ t = some ⟨opened, false⟩ := by
  cases t <;> first | rfl | exact absurd rfl ht

theorem next?_startsValue {t : Token} (ht : t.startsValue = true) (opened : List Bracket)
    (ended ended' : Bool) :
    ∃ q, next? ⟨opened, ended⟩ t = some q ∧ next? ⟨opened, ended'⟩ t = some q := by
  cases t <;> first | exact ⟨_, rfl, rfl⟩ | cases ht

theorem next?_closing (bracket : Bracket) (opened : List Bracket) :
    next? ⟨bracket :: opened, true⟩ (.closing bracket) = some ⟨opened, true⟩ :=
  if_pos rfl

theorem next?_closing_eq_none {p : Progress} {bracket : Bracket}
    (h : ∀ opened, p ≠ ⟨bracket :: opened, true⟩) : p.next? (.closing bracket) = none := by
  obtain ⟨_ | ⟨innermost, opened⟩, _ | _⟩ := p
  · rfl
  · rfl
  · rfl
  · refine if_neg fun hbracket => h opened ?_
    rw [hbracket]

theorem eq_of_next?_closing {p q : Progress} {bracket : Bracket}
    (h : p.next? (.closing bracket) = some q) :
    p = ⟨bracket :: q.opened, true⟩ ∧ q.ended = true := by
  obtain ⟨opened, rfl⟩ : ∃ opened, p = ⟨bracket :: opened, true⟩ :=
    Classical.byContradiction fun hp =>
      nomatch (next?_closing_eq_none (not_exists.1 hp)).symm.trans h
  cases (next?_closing bracket opened).symm.trans h
  exact ⟨rfl, rfl⟩

end Progress

namespace Grammar

open Progress

/-- What the language generates ends an atom and leaves the brackets as they were. -/
theorem after?_of_generates {nonterminal : Nonterminal} {ts : List Token}
    (h : Generates nonterminal ts) (p : Progress) : p.after? ts = some ⟨p.opened, true⟩ := by
  induction h generalizing p with
  | number numeral => rfl
  | imaginaryUnit => rfl
  | euler => rfl
  | pi => rfl
  | letter name => rfl
  | bracketed bracket _ ih =>
    show after? ⟨bracket :: p.opened, false⟩ _ = _
    rw [after?_append, ih]
    show (next? ⟨bracket :: p.opened, true⟩ (.closing bracket)).bind _ = _
    rw [next?_closing]
    rfl
  | primary _ ih => exact ih p
  | minus _ ih => exact ih ⟨p.opened, false⟩
  | single _ ih => exact ih p
  | joined _ _ ih ih' =>
    rw [after?_append, ih]
    exact ih' ⟨p.opened, true⟩
  | connected _ ht _ ih ih' =>
    rw [after?_append, ih]
    show (next? ⟨p.opened, true⟩ _).bind _ = _
    rw [next?_operator ht]
    exact ih' ⟨p.opened, false⟩

/-- What goes on from the middle of a sentence: behind an atom, or where an atom is needed. -/
def Fits (ended : Bool) (ts : List Token) : Prop :=
  match ended with
  | true => ∀ us, Generates .atom us → Generates .sentence (us ++ ts)
  | false => Generates .sentence ts

/-- What goes on to the end of a sentence: for every open bracket the rest of what it contains, then
the bracket that closes it. -/
def Completes : List Bracket → Bool → List Token → Prop
  | [], ended, ts => Fits ended ts
  | bracket :: opened, ended, ts =>
    ∃ us vs, ts = us ++ .closing bracket :: vs ∧ Fits ended us ∧ Completes opened true vs

theorem fits_nil : Fits true [] := fun us h => (List.append_nil us).symm ▸ .single h

theorem Fits.ended {ts : List Token} (h : Fits false ts) (ended : Bool) : Fits ended ts := by
  cases ended with
  | false => exact h
  | true => exact fun us hus => .joined hus h

theorem fits_atom {us ts : List Token} (hus : Generates .atom us) (h : Fits true ts)
    (ended : Bool) : Fits ended (us ++ ts) :=
  Fits.ended (h us hus) ended

theorem fits_operator {t : Token} (ht : t.operator? ≠ none) {ts : List Token} (h : Fits false ts) :
    Fits true (t :: ts) :=
  fun _ hus => .connected hus ht h

theorem fits_minus {ts : List Token} (h : Fits false ts) (ended : Bool) :
    Fits ended (.minus :: ts) := by
  cases ended with
  | true => exact fits_operator (by decide) h
  | false =>
    cases h with
    | single h => exact .single (.minus h)
    | joined h h' => exact .joined (.minus h) h'
    | connected h ht h' => exact .connected (.minus h) ht h'

theorem Completes.prepend {ts : List Token} {opened : List Bracket} {ended ended' : Bool}
    (h : Completes opened ended ts) (us : List Token)
    (hus : ∀ vs, Fits ended vs → Fits ended' (us ++ vs)) :
    Completes opened ended' (us ++ ts) := by
  cases opened with
  | nil => exact hus ts h
  | cons bracket opened =>
    obtain ⟨vs, ws, rfl, hvs, hws⟩ := h
    exact ⟨us ++ vs, ws, (List.append_assoc ..).symm, hus vs hvs, hws⟩

theorem completes_of_next? {p q : Progress} {t : Token} {ts : List Token} (hq : p.next? t = some q)
    (h : Completes q.opened q.ended ts) : Completes p.opened p.ended (t :: ts) := by
  have hatom (hvalue : Generates .primary [t]) (heq : p.next? t = some ⟨p.opened, true⟩) :
      Completes p.opened p.ended (t :: ts) := by
    cases hq.symm.trans heq
    exact h.prepend [t] fun vs hvs => fits_atom (.primary hvalue) hvs p.ended
  have hoperator (ht : t.operator? ≠ none)
      (heq : p.next? t = if p.ended then some ⟨p.opened, false⟩ else none) :
      Completes p.opened p.ended (t :: ts) := by
    rw [heq] at hq
    split at hq
    · next hended =>
      cases hq
      rw [hended]
      exact h.prepend [t] fun vs hvs => fits_operator ht hvs
    · cases hq
  cases t with
  | number numeral => exact hatom (.number numeral) rfl
  | imaginaryUnit => exact hatom .imaginaryUnit rfl
  | euler => exact hatom .euler rfl
  | pi => exact hatom .pi rfl
  | letter name => exact hatom (.letter name) rfl
  | plus => exact hoperator (by decide) rfl
  | star => exact hoperator (by decide) rfl
  | slash => exact hoperator (by decide) rfl
  | caret => exact hoperator (by decide) rfl
  | minus =>
    cases hq
    exact h.prepend [.minus] fun vs hvs => fits_minus hvs p.ended
  | opening bracket =>
    cases hq
    obtain ⟨us, vs, rfl, hus, hvs⟩ := h
    have hprimary := Generates.bracketed bracket hus
    have hcompletes := hvs.prepend _ fun ws hws => fits_atom (.primary hprimary) hws p.ended
    simpa using hcompletes
  | closing bracket =>
    obtain ⟨rfl, hended⟩ := Progress.eq_of_next?_closing hq
    rw [hended] at h
    exact ⟨[], ts, rfl, fits_nil, h⟩

theorem completes_of_after? {p : Progress} {ts : List Token}
    (h : p.after? ts = some ⟨[], true⟩) : Completes p.opened p.ended ts := by
  induction ts generalizing p with
  | nil =>
    cases h
    exact fits_nil
  | cons t ts ih =>
    obtain ⟨q, hq, h⟩ := Option.bind_eq_some_iff.1 h
    exact completes_of_next? hq (ih h)

/-- The sentences are the sequences that the machine gets through to the end of an atom outside of
all brackets. -/
theorem generates_iff_after? {ts : List Token} :
    Generates .sentence ts ↔ start.after? ts = some ⟨[], true⟩ :=
  ⟨fun h => after?_of_generates h start, completes_of_after?⟩

theorem after?_closing (opened : List Bracket) :
    after? ⟨opened, true⟩ (opened.map .closing) = some ⟨[], true⟩ := by
  induction opened with
  | nil => rfl
  | cons bracket opened ih =>
    show (next? ⟨bracket :: opened, true⟩ (.closing bracket)).bind _ = _
    rw [next?_closing]
    exact ih

theorem exists_after?_of_generates {ts us : List Token} (h : Generates .sentence (ts ++ us)) :
    ∃ p, start.after? ts = some p := by
  rw [generates_iff_after?, after?_append] at h
  obtain ⟨p, hp, -⟩ := Option.bind_eq_some_iff.1 h
  exact ⟨p, hp⟩

/-- What gets the machine through goes on to a sentence, by a value and the brackets that close the
open ones. -/
theorem generates_of_after? {p : Progress} {ts : List Token} (h : start.after? ts = some p) :
    Generates .sentence (ts ++ .imaginaryUnit :: p.opened.map .closing) := by
  rw [generates_iff_after?, after?_append, h]
  exact after?_closing p.opened

end Grammar
end ComplexAlgebra
