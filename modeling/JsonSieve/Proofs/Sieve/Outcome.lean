import JsonSieve.Proofs.Evaluation.Meaning
import JsonSieve.Sieve

/-!
# What a sieve makes of a document

A sieve evaluates its filters in order, on the same bindings, and writes down their verdicts until
one of them fails.  Since an evaluation leaves its bindings as they were, each filter has the
verdict that it has by itself.  So the outcome on a document is the conjunction of the verdicts of
all filters, or the first error among them, and what is written down are the truth values before
that error.
-/

namespace JsonSieve

namespace Verdict

/-- Whether all verdicts are true, or the first error. -/
def conjunction : List Verdict → Verdict
  | [] => .ok true
  | .error error :: _ => .error error
  | .ok value :: verdicts => (conjunction verdicts).map (value && ·)

def valuesBeforeError : List Verdict → List Bool
  | [] => []
  | .error _ :: _ => []
  | .ok value :: verdicts => value :: valuesBeforeError verdicts

theorem values_or_error (verdicts : List Verdict) :
    (∃ values : List Bool, verdicts = values.map .ok) ∨
      ∃ (values : List Bool) (error : EvaluationError) (later : List Verdict),
        verdicts = values.map .ok ++ .error error :: later := by
  induction verdicts with
  | nil => exact Or.inl ⟨[], rfl⟩
  | cons verdict verdicts ih =>
      cases verdict with
      | error error => exact Or.inr ⟨[], error, verdicts, rfl⟩
      | ok value =>
          rcases ih with ⟨values, rfl⟩ | ⟨values, error, later, rfl⟩
          · exact Or.inl ⟨value :: values, rfl⟩
          · exact Or.inr ⟨value :: values, error, later, rfl⟩

theorem valuesBeforeError_append (values : List Bool) (verdicts : List Verdict) :
    valuesBeforeError (values.map .ok ++ verdicts) = values ++ valuesBeforeError verdicts := by
  induction values with
  | nil => rfl
  | cons value values ih => exact congrArg (List.cons value) ih

theorem valuesBeforeError_map_ok (values : List Bool) :
    valuesBeforeError (values.map .ok) = values := by
  have whole := valuesBeforeError_append values []
  rwa [List.append_nil, valuesBeforeError, List.append_nil] at whole

theorem conjunction_map_ok (values : List Bool) :
    conjunction (values.map .ok) = .ok (values.all id) := by
  induction values with
  | nil => rfl
  | cons value values ih =>
      rw [List.map_cons, conjunction, ih]
      rfl

theorem conjunction_append_error (values : List Bool) (error : EvaluationError)
    (later : List Verdict) :
    conjunction (values.map .ok ++ .error error :: later) = .error error := by
  induction values with
  | nil => rfl
  | cons value values ih =>
      rw [List.map_cons, List.cons_append, conjunction, ih]
      rfl

theorem getElem?_valuesBeforeError {verdicts : List Verdict} {index : Nat} {value : Bool} :
    (valuesBeforeError verdicts)[index]? = some value ↔
      ∃ (earlier : List Bool) (later : List Verdict),
        verdicts = earlier.map .ok ++ .ok value :: later ∧ earlier.length = index := by
  constructor
  · induction verdicts generalizing index with
    | nil => simp [valuesBeforeError]
    | cons verdict verdicts ih =>
        cases verdict with
        | error error => simp [valuesBeforeError]
        | ok first =>
            intro found
            cases index with
            | zero =>
                obtain rfl := Option.some.inj found
                exact ⟨[], verdicts, rfl, rfl⟩
            | succ index =>
                obtain ⟨earlier, later, rfl, rfl⟩ := ih found
                exact ⟨first :: earlier, later, rfl, rfl⟩
  · rintro ⟨earlier, later, rfl, rfl⟩
    rw [valuesBeforeError_append, valuesBeforeError, List.getElem?_append_right (Nat.le_refl _),
      Nat.sub_self]
    rfl

end Verdict

namespace Sieve

open Evaluation Verdict

/-- The verdicts of all filters on a document, each evaluated by itself. -/
def ownVerdicts (sieve : Sieve) (value : Json.Value) : List Verdict :=
  sieve.filters.map (verdictOn sieve.settings.limits value)

/-- The verdicts that are reached on a document. -/
def reached (sieve : Sieve) (document : Bytes) : List Bool :=
  match Json.ofBytes? document with
  | none => []
  | some value => valuesBeforeError (sieve.ownVerdicts value)

def outcome (sieve : Sieve) (document : Bytes) : Verdict :=
  match Json.ofBytes? document with
  | none => .error .malformedDocument
  | some value =>
      (conjunction (sieve.ownVerdicts value)).map (!sieve.filters.isEmpty && ·)

/-- In the evaluation of a document the filter at an index is reached and has this verdict. -/
def Reaches (sieve : Sieve) (document : Bytes) (index : Nat) (verdict : Bool) : Prop :=
  ∃ (value : Json.Value) (earlier : List Bool) (later : List Verdict),
    Json.ofBytes? document = some value ∧
      sieve.ownVerdicts value = earlier.map .ok ++ .ok verdict :: later ∧
        earlier.length = index

theorem getElem?_reached {sieve : Sieve} {document : Bytes} {index : Nat} {verdict : Bool} :
    (sieve.reached document)[index]? = some verdict ↔
      sieve.Reaches document index verdict := by
  unfold reached Reaches
  cases Json.ofBytes? document with
  | none => simp
  | some value =>
      simp only [getElem?_valuesBeforeError, Option.some.injEq, exists_and_left, exists_eq_left']

theorem judgeInOrder_eq (limits : Limits) (filters : List Expression) (verdicts : List Bool)
    (value : Json.Value) :
    judgeInOrder limits filters verdicts (initial value) =
      (conjunction (filters.map (verdictOn limits value)),
        valuesBeforeError (filters.map (verdictOn limits value)) ++
          verdicts.drop (valuesBeforeError (filters.map (verdictOn limits value))).length) := by
  induction filters generalizing verdicts with
  | nil => rfl
  | cons filter filters ih =>
      rw [judgeInOrder, judge_initial, List.map_cons]
      cases verdictOn limits value filter with
      | error error => rfl
      | ok verdict =>
          simp only [ih, conjunction, valuesBeforeError, List.length_cons, List.cons_append,
            List.drop_tail]

/-- Evaluating the filters of a sieve gives its outcome on the document, and writes the verdicts
that are reached over those that it starts from. -/
theorem run_eq (sieve : Sieve) (document : Bytes) (verdicts : List Bool) :
    sieve.run document verdicts =
      (sieve.outcome document,
        sieve.reached document ++ verdicts.drop (sieve.reached document).length) := by
  unfold run outcome reached
  cases Json.ofBytes? document with
  | none => rfl
  | some value => simp only [judgeInOrder_eq, ownVerdicts]

theorem evaluate_eq (sieve : Sieve) (document : Bytes) :
    sieve.evaluate document = (sieve.outcome document).map (fun passes =>
      ⟨passes, sieve.reached document ++
        (noVerdicts sieve.filters).drop (sieve.reached document).length⟩) := by
  rw [evaluate, run_eq]

theorem record_eq (sieve : Sieve) (document : Bytes) :
    sieve.record document =
      ((sieve.outcome document).is true,
        { sieve with verdicts := sieve.reached document ++
            sieve.verdicts.drop (sieve.reached document).length }) := by
  rw [record, run_eq]
  cases sieve.outcome document with
  | error error => rfl
  | ok passes => cases passes <;> rfl

theorem accepts_eq (sieve : Sieve) (document : Bytes) :
    sieve.accepts document = (sieve.outcome document).is true := by
  rw [accepts, evaluate_eq]
  cases sieve.outcome document with
  | error error => rfl
  | ok passes => cases passes <;> rfl

theorem verdict_record (sieve : Sieve) (document : Bytes) (index : Nat) :
    (sieve.record document).2.verdict index =
      ((sieve.reached document)[index]?).getD (sieve.verdict index) := by
  rw [record_eq, verdict, verdict]
  by_cases within : index < (sieve.reached document).length
  · rw [List.getElem?_append_left within, List.getElem?_eq_getElem within]
    rfl
  · have beyond : (sieve.reached document)[index]? = none :=
      List.getElem?_eq_none (by omega)
    rw [List.getElem?_append_right (by omega), List.getElem?_drop,
      Nat.add_sub_cancel' (by omega), beyond]
    rfl

theorem evaluation_cases (sieve : Sieve) (document : Bytes) :
    (Json.ofBytes? document = none ∧ sieve.reached document = [] ∧
      sieve.outcome document = .error .malformedDocument) ∨
    (∃ value, Json.ofBytes? document = some value ∧
      sieve.ownVerdicts value = (sieve.reached document).map .ok ∧
        sieve.outcome document =
          .ok (!sieve.filters.isEmpty && (sieve.reached document).all id)) ∨
    ∃ value error later, Json.ofBytes? document = some value ∧
      sieve.ownVerdicts value = (sieve.reached document).map .ok ++ .error error :: later ∧
        sieve.outcome document = .error error := by
  unfold reached outcome
  cases Json.ofBytes? document with
  | none => exact Or.inl ⟨rfl, rfl, rfl⟩
  | some value =>
      rcases values_or_error (sieve.ownVerdicts value) with
        ⟨values, split⟩ | ⟨values, error, later, split⟩
      · refine Or.inr (Or.inl ⟨value, rfl, ?_, ?_⟩)
        · simp only [split, valuesBeforeError_map_ok]
        · simp only [split, valuesBeforeError_map_ok, conjunction_map_ok]
          rfl
      · have stopped : valuesBeforeError (sieve.ownVerdicts value) = values := by
          rw [split, valuesBeforeError_append, valuesBeforeError, List.append_nil]
        refine Or.inr (Or.inr ⟨value, error, later, rfl, ?_, ?_⟩)
        · simp only [stopped]
          exact split
        · simp only [split, conjunction_append_error]
          rfl

theorem length_reached_of_ok {sieve : Sieve} {document : Bytes} {passes : Bool}
    (judged : sieve.outcome document = .ok passes) :
    (sieve.reached document).length = sieve.filters.length := by
  rcases sieve.evaluation_cases document with
    ⟨-, -, failed⟩ | ⟨value, -, all, -⟩ | ⟨value, error, later, -, -, failed⟩
  · rw [failed] at judged
    cases judged
  · have lengths := congrArg List.length all
    simp only [ownVerdicts, List.length_map] at lengths
    exact lengths.symm
  · rw [failed] at judged
    cases judged

theorem length_reached_le (sieve : Sieve) (document : Bytes) :
    (sieve.reached document).length ≤ sieve.filters.length := by
  rcases sieve.evaluation_cases document with
    ⟨-, nothing, -⟩ | ⟨value, -, -, judged⟩ | ⟨value, error, later, -, split, -⟩
  · rw [nothing]
    exact Nat.zero_le _
  · exact Nat.le_of_eq (length_reached_of_ok judged)
  · have lengths := congrArg List.length split
    simp only [ownVerdicts, List.length_map, List.length_append, List.length_cons] at lengths
    omega

end Sieve

end JsonSieve
