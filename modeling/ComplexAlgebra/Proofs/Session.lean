import Mathlib.Data.List.Perm.Basic
import ComplexAlgebra.Resolution
import ComplexAlgebra.Proofs.Undoing
import ComplexAlgebra.Proofs.Written

/-! Sessions: lines and scripts resolved one after the other in one scope. Every solved equation
adds one binding to the scope, whose name was unbound before, and nothing else touches the scope. -/
namespace ComplexAlgebra

namespace Scope

variable {K : Type}

theorem get?_eq_none_iff (s : Scope K) (name : Char) :
    s.get? name = none ↔ name ∉ s.bindings.map (·.1) := by
  rw [get?, List.lookup_eq_none_iff, List.mem_map, not_exists]
  refine forall_congr' fun b => ?_
  rw [not_and, bne_iff_ne, ne_comm]

theorem insert_perm {name : Char} (v : Value K) {bs : List (Char × Value K)}
    (h : name ∉ bs.map (·.1)) : (insert name v bs).Perm ((name, v) :: bs) := by
  induction bs with
  | nil => exact .refl _
  | cons hd tl ih =>
    rw [List.map_cons, List.mem_cons, not_or] at h
    rw [insert]
    split
    · exact .refl _
    · rw [if_neg h.1]
      exact ((ih h.2).cons hd).trans (.swap _ _ _)

theorem bindings_bind_perm {s : Scope K} {name : Char} (v : Value K) (h : s.get? name = none) :
    (s.bind name v).bindings.Perm ((name, v) :: s.bindings) :=
  insert_perm v ((s.get?_eq_none_iff name).1 h)

/-- All bound names are names of variables. -/
def WellNamed (s : Scope K) : Prop := ∀ b ∈ s.bindings, isVariableName b.1 = true

theorem wellNamed_empty : (empty : Scope K).WellNamed := fun _ hb => absurd hb List.not_mem_nil

theorem WellNamed.bind {s : Scope K} (hs : s.WellNamed) {name : Char}
    (hname : isVariableName name = true) (v : Value K) : (s.bind name v).WellNamed := by
  intro b hb
  rcases mem_insert hb with rfl | hb
  · exact hname
  · exact hs b hb

def alphabet : List Char := "abcdfghjklmnopqrstuvwxyz".toList

theorem mem_alphabet {c : Char} (h : isVariableName c = true) : c ∈ alphabet := by
  have hall : ∀ n < 128, isVariableName (Char.ofNat n) = true → Char.ofNat n ∈ alphabet := by
    decide
  have hle : c.toNat < 128 := by
    simp only [isVariableName, Bool.and_eq_true, decide_eq_true_eq] at h
    have hz : c.toNat ≤ 'z'.toNat := h.1.1.2
    exact Nat.lt_of_le_of_lt hz (by decide)
  have hc := hall c.toNat hle
  rw [Char.ofNat_toNat] at hc
  exact hc h

theorem WellNamed.size_le {s : Scope K} (hs : s.WellNamed) : s.size ≤ 24 := by
  have hnodup : (s.bindings.map (·.1)).Nodup := by
    rw [List.nodup_iff_pairwise_ne, List.pairwise_map]
    refine s.sorted.imp ?_
    intro a b hlt heq
    rw [heq] at hlt
    exact Char.lt_irrefl _ hlt
  have hsub : s.bindings.map (·.1) ⊆ alphabet := by
    intro name hname
    obtain ⟨b, hb, rfl⟩ := List.mem_map.1 hname
    exact mem_alphabet (hs b hb)
  have hle := (List.subperm_of_subset hnodup hsub).length_le
  rw [List.length_map] at hle
  exact hle

end Scope

variable {K : Type} [Arithmetic K]

def isSolved : Except (Error K) (Resolution K) → Bool
  | .ok (.binding _ _) => true
  | _ => false

namespace Scope

theorem unbound_of_outcome {s : Scope K} {source : List Char} {name : Char} {v : Value K}
    (h : s.outcome source = .ok (.binding name v)) :
    s.get? name = none ∧ isVariableName name = true := by
  unfold outcome at h
  split at h
  · split at h <;> cases h
  · next left right _ =>
    split at h
    · cases h
    · next hsolve =>
      cases h
      unfold solveText at hsolve
      split at hsolve
      · cases hsolve
      · next leftTree hl =>
        split at hsolve
        · cases hsolve
        · next rightTree hr =>
          split at hsolve
          · cases hsolve
          · next hb =>
            cases hsolve
            obtain ⟨hmem, hnone⟩ := mem_names_of_solve hb
            exact ⟨hnone, hmem.elim (written_of_parse hl).isVariableName
              (written_of_parse hr).isVariableName⟩
  · cases h

theorem resolve_of_outcome {s : Scope K} {source : List Char}
    {o : Except (Error K) (Resolution K)} (h : s.outcome source = o) :
    s.resolve source = (o, s.after o) := by
  rw [resolve, h]

/-- Lines resolved one after the other, with their outcomes and the scope they leave. -/
inductive Follows : Scope K → List (Except (Error K) (Resolution K)) → Scope K → Prop
  | nil (s : Scope K) : Follows s [] s
  | cons {s t : Scope K} (source : List Char) {os : List (Except (Error K) (Resolution K))}
    (h : Follows (s.resolve source).2 os t) : Follows s ((s.resolve source).1 :: os) t

theorem Follows.append {s t u : Scope K} {os os' : List (Except (Error K) (Resolution K))}
    (h : Follows s os t) (h' : Follows t os' u) : Follows s (os ++ os') u := by
  induction h with
  | nil s => exact h'
  | cons source h ih => exact .cons source (ih h')

theorem Follows.preserves {P : Scope K → Prop}
    (step : ∀ (s : Scope K) (source : List Char), P s → P (s.resolve source).2)
    {s t : Scope K} {os : List (Except (Error K) (Resolution K))} (h : Follows s os t)
    (hs : P s) : P t := by
  induction h with
  | nil s => exact hs
  | cons source h ih => exact ih (step _ source hs)

theorem get?_resolve {s : Scope K} {name : Char} {v : Value K} (h : s.get? name = some v)
    (source : List Char) : (s.resolve source).2.get? name = some v := by
  cases ho : s.outcome source with
  | error e => rw [resolve_of_outcome ho]; exact h
  | ok r =>
    rw [resolve_of_outcome ho]
    cases r with
    | value w => exact h
    | binding other w =>
      have hne : name ≠ other := by
        rintro rfl
        simp [(unbound_of_outcome ho).1] at h
      simp [after, hne, h]

theorem wellNamed_resolve {s : Scope K} (h : s.WellNamed) (source : List Char) :
    (s.resolve source).2.WellNamed := by
  cases ho : s.outcome source with
  | error e => rw [resolve_of_outcome ho]; exact h
  | ok r =>
    rw [resolve_of_outcome ho]
    cases r with
    | value w => exact h
    | binding other w => exact h.bind (unbound_of_outcome ho).2 w

theorem size_resolve (s : Scope K) (source : List Char) :
    (s.resolve source).2.size = s.size + if isSolved (s.resolve source).1 then 1 else 0 := by
  cases ho : s.outcome source with
  | error e => rw [resolve_of_outcome ho]; rfl
  | ok r =>
    rw [resolve_of_outcome ho]
    cases r with
    | value w => rfl
    | binding other w => exact (bindings_bind_perm w (unbound_of_outcome ho).1).length_eq

theorem Follows.size_eq {s t : Scope K} {os : List (Except (Error K) (Resolution K))}
    (h : Follows s os t) : t.size = s.size + os.countP isSolved := by
  induction h with
  | nil s => rfl
  | cons source h ih =>
    rw [ih, size_resolve, List.countP_cons, Nat.add_assoc, Nat.add_comm (ite _ _ _)]

end Scope

/-- What a session asks of its scope: to resolve a line, or to run a script. -/
inductive Call where
  | line (source : List Char)
  | script (source : List Char)

namespace Scope

/-- The outcomes of the lines of a script, up to the first error. -/
def lineOutcomes (s : Scope K) : List (List Char) → List (Except (Error K) (Resolution K))
  | [] => []
  | line :: rest =>
    if Script.isPassedOver (Text.trim line) then s.lineOutcomes rest
    else
      match s.resolve (Text.trim line) with
      | (.error e, _) => [.error e]
      | (.ok r, t) => .ok r :: t.lineOutcomes rest

/-- A script resolves its lines one after the other, also those before an error. -/
theorem follows_runLines (s : Scope K) (number : Nat) (lines : List (List Char)) :
    Follows s (s.lineOutcomes lines) (s.runLines number lines).2 := by
  induction lines generalizing s number with
  | nil => exact .nil s
  | cons line rest ih =>
    unfold lineOutcomes runLines
    split
    · exact ih s _
    · cases ho : s.outcome (Text.trim line) with
      | error e =>
        have hh := Follows.cons (Text.trim line) (Follows.nil (s.resolve (Text.trim line)).2)
        rw [resolve_of_outcome ho] at hh ⊢
        exact hh
      | ok r =>
        have hh := Follows.cons (Text.trim line) (ih (s.resolve (Text.trim line)).2 (number + 1))
        rw [resolve_of_outcome ho] at hh ⊢
        exact hh

theorem lineOutcomes_of_ok {s : Scope K} {number : Nat} {lines : List (List Char)}
    {rs : List (Resolution K)} (h : (s.runLines number lines).1 = .ok rs) :
    s.lineOutcomes lines = rs.map .ok := by
  induction lines generalizing s number rs with
  | nil => cases h; rfl
  | cons line rest ih =>
    unfold lineOutcomes
    unfold runLines at h
    split
    · next hp =>
      rw [if_pos hp] at h
      exact ih h
    · next hp =>
      rw [if_neg hp] at h
      split
      · next ho =>
        rw [ho] at h
        cases h
      · next r t ho =>
        rw [ho] at h
        obtain ⟨us, hus, rfl⟩ := map_eq_ok h
        rw [ih hus, List.map_cons]

theorem lineOutcomes_of_error {s : Scope K} {number : Nat} {lines : List (List Char)}
    {e : ScriptError K} (h : (s.runLines number lines).1 = .error e) :
    ∃ rs : List (Resolution K), s.lineOutcomes lines = rs.map .ok ++ [.error e.cause] := by
  induction lines generalizing s number with
  | nil => cases h
  | cons line rest ih =>
    unfold lineOutcomes
    unfold runLines at h
    split
    · next hp =>
      rw [if_pos hp] at h
      exact ih h
    · next hp =>
      rw [if_neg hp] at h
      split
      · next ho =>
        rw [ho] at h
        cases h
        exact ⟨[], rfl⟩
      · next r t ho =>
        rw [ho] at h
        cases hrun : (t.runLines (number + 1) rest).1 with
        | error e' =>
          simp only [hrun] at h
          cases h
          obtain ⟨rs, hrs⟩ := ih hrun
          exact ⟨r :: rs, by rw [hrs]; rfl⟩
        | ok rs =>
          simp only [hrun] at h
          cases h

def callOutcomes (s : Scope K) : Call → List (Except (Error K) (Resolution K))
  | .line source => [(s.resolve source).1]
  | .script source => s.lineOutcomes (Text.pieces '\n' source)

def afterCall (s : Scope K) : Call → Scope K
  | .line source => (s.resolve source).2
  | .script source => (s.run source).2

def sessionOutcomes (s : Scope K) : List Call → List (Except (Error K) (Resolution K))
  | [] => []
  | call :: rest => s.callOutcomes call ++ (s.afterCall call).sessionOutcomes rest

def session (s : Scope K) (calls : List Call) : Scope K := calls.foldl afterCall s

theorem follows_call (s : Scope K) (call : Call) :
    Follows s (s.callOutcomes call) (s.afterCall call) := by
  cases call with
  | line source => exact .cons source (.nil _)
  | script source => exact follows_runLines s 1 _

theorem follows_session (s : Scope K) (calls : List Call) :
    Follows s (s.sessionOutcomes calls) (s.session calls) := by
  induction calls generalizing s with
  | nil => exact .nil s
  | cons call rest ih => exact (s.follows_call call).append (ih _)

/-- A line changes the scope only if it solves an equation, and then by one binding of a name that
was unbound. So a session keeps every binding, and it solves no more equations than there are
names. -/
theorem scope_evolution (K : Type) [Arithmetic K] :
    (∀ (s : Scope K) (source : List Char),
      match (s.resolve source).1 with
      | .error _ => (s.resolve source).2 = s
      | .ok (.value _) => (s.resolve source).2 = s
      | .ok (.binding name v) =>
        s.get? name = none ∧ isVariableName name = true ∧
          (s.resolve source).2.bindings.Perm ((name, v) :: s.bindings)) ∧
    (∀ (s : Scope K) (calls : List Call) (name : Char) (v : Value K),
      s.get? name = some v → (s.session calls).get? name = some v) ∧
    (∀ calls : List Call,
      ((Scope.empty : Scope K).sessionOutcomes calls).countP isSolved ≤ 24) := by
  refine ⟨fun s source => ?_, fun s calls name v h => ?_, fun calls => ?_⟩
  · cases ho : s.outcome source with
    | error e => rw [resolve_of_outcome ho]; rfl
    | ok r =>
      rw [resolve_of_outcome ho]
      cases r with
      | value w => rfl
      | binding name w =>
        obtain ⟨hnone, hname⟩ := unbound_of_outcome ho
        exact ⟨hnone, hname, bindings_bind_perm w hnone⟩
  · exact (s.follows_session calls).preserves (P := fun s => s.get? name = some v)
      (fun _ source h => get?_resolve h source) h
  · have hf := (Scope.empty : Scope K).follows_session calls
    have hnamed := hf.preserves (P := WellNamed) (fun _ source h => wellNamed_resolve h source)
      wellNamed_empty
    have hle := hnamed.size_le
    rw [hf.size_eq] at hle
    exact Nat.le_trans (Nat.le_add_left _ _) hle

end Scope
end ComplexAlgebra
