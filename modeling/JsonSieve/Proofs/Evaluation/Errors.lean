import JsonSieve.Proofs.Evaluation.Meaning
import JsonSieve.Proofs.Expression.Scope
import JsonSieve.Proofs.Fallible

/-!
# Why filters fail

A filter fails on a document for one of three reasons.  Something in the document is missing or is
not of the kind that the filter asks for; or a field starts at a slot that is not filled where the
field stands; or a part of the filter stands where it has no meaning.  The last two can be seen in
the filter without any document.  So a filter that is free of them fails, given enough levels and
time, on account of the document only.
-/

namespace JsonSieve

/-- The error says something about the document: a value is missing or not of the kind asked for. -/
def EvaluationError.DependsOnDocument : EvaluationError → Prop
  | .path _ | .mismatch _ _ _ | .notScalar _ | .notArray _ | .constantSource _ => True
  | .malformedDocument | .unboundSlot _ | .unsupported _ | .tooDeep _ | .outOfTime => False

/-- What an error is due to: the document, or else an expression whose fields do not all start at
filled slots, or whose parts do not all stand where they have a meaning. -/
inductive EvaluationError.DueTo (isScoped isSorted : Prop) : EvaluationError → Prop
  | document {error : EvaluationError} (depends : error.DependsOnDocument) :
      DueTo isScoped isSorted error
  | slot (slot : Nat) (unscoped : ¬isScoped) : DueTo isScoped isSorted (.unboundSlot slot)
  | place (misplacement : Misplacement) (unsorted : ¬isSorted) :
      DueTo isScoped isSorted (.unsupported misplacement)

theorem EvaluationError.DueTo.of_part {error : EvaluationError}
    {partScoped partSorted isScoped isSorted : Prop} (due : error.DueTo partScoped partSorted)
    (scopes : isScoped → partScoped) (sorts : isSorted → partSorted) :
    error.DueTo isScoped isSorted := by
  cases due with
  | document depends => exact .document depends
  | slot slot unscoped => exact .slot slot (mt scopes unscoped)
  | place misplacement unsorted => exact .place misplacement (mt sorts unsorted)

theorem Verdict.mem_of_firstOther_eq_error {error : EvaluationError} {neutral : Bool}
    {verdicts : List Verdict} (failed : firstOther neutral verdicts = .error error) :
    .error error ∈ verdicts := by
  induction verdicts with
  | nil => cases failed
  | cons verdict verdicts ih =>
      cases verdict with
      | error other =>
          rw [firstOther_cons_error] at failed
          rw [failed]
          exact List.mem_cons_self
      | ok value =>
          rw [firstOther_cons_ok] at failed
          split at failed
          · exact List.mem_cons_of_mem _ (ih failed)
          · cases failed

/-- Every slot of a scope holds something. -/
def Environment.Fills (environment : Environment) (scope : List Nat) : Prop :=
  ∀ slot ∈ scope, ∃ value, environment slot = some value

namespace Environment

variable {environment : Environment} {scope : List Nat} {expression : Expression}
  {error : EvaluationError}

theorem Fills.put (fills : environment.Fills scope) (slot : Nat) (value : Json.Value) :
    (environment.put slot value).Fills (slot :: scope) := by
  intro other filled
  by_cases same : other = slot
  · exact ⟨value, by rw [same, put_self]⟩
  · obtain ⟨held, isHeld⟩ := fills other ((List.mem_cons.mp filled).resolve_left same)
    exact ⟨held, (put_of_ne same environment value).trans isHeld⟩

theorem dueTo_of_fieldValue (fills : environment.Fills scope) {slot : Nat} {path : String}
    (failed : environment.fieldValue slot path = .error error) :
    error.DueTo (slot ∈ scope) True := by
  rw [fieldValue] at failed
  split at failed
  · next value _ =>
      cases followed : Path.resolve value path with
      | error pathError =>
          rw [followed] at failed
          cases failed
          exact .document trivial
      | ok target =>
          rw [followed] at failed
          cases failed
  · next empty =>
      cases failed
      refine .slot slot fun filled => ?_
      obtain ⟨value, held⟩ := fills slot filled
      cases empty.symm.trans held

theorem dueTo_of_operand (fills : environment.Fills scope)
    (failed : environment.operand expression = .error error) :
    error.DueTo (expression.WellScoped scope) expression.IsTerm := by
  cases expression with
  | field slot path =>
      rcases Fallible.bind_eq_error_iff.mp failed with failed | ⟨value, -, failed⟩
      · exact (dueTo_of_fieldValue fills failed).of_part
          (fun | .field _ filled => filled) fun _ => trivial
      · cases isScalar : Scalar.ofJson? value <;> rw [isScalar] at failed <;> cases failed
        exact .document trivial
  | literal value => cases failed
  | _ =>
      cases failed
      exact .place _ nofun

theorem dueTo_of_elements (fills : environment.Fills scope)
    (failed : environment.elements expression = .error error) :
    error.DueTo (expression.WellScoped scope) expression.IsTerm := by
  cases expression with
  | field slot path =>
      rcases Fallible.bind_eq_error_iff.mp failed with failed | ⟨value, -, failed⟩
      · exact (dueTo_of_fieldValue fills failed).of_part
          (fun | .field _ filled => filled) fun _ => trivial
      · cases value <;> cases failed <;> exact .document trivial
  | literal value =>
      cases failed
      exact .document trivial
  | _ =>
      cases failed
      exact .place _ nofun

end Environment

namespace Expression

open Environment EvaluationError

variable {error : EvaluationError}

theorem dependsOnDocument_of_compareScalars {comparison : Comparison} {first second : Scalar}
    (failed : Evaluation.compareScalars comparison first second = .error error) :
    error.DependsOnDocument := by
  rw [Evaluation.compareScalars] at failed
  split at failed
  · cases failed
  · cases failed
    trivial

/-- An error of a condition is due to the document, unless something is wrong with the condition. -/
theorem dueTo_of_meaning {expression : Expression} {environment : Environment} {scope : List Nat}
    (fills : environment.Fills scope) (failed : expression.meaning environment = .error error) :
    error.DueTo (expression.WellScoped scope) expression.WellSorted := by
  induction expression generalizing environment scope with
  | constant value => cases failed
  | connective kind children ih =>
      rw [meaning_connective] at failed
      split at failed
      · cases failed
      · obtain ⟨child, member, failed⟩ :=
          List.mem_map.mp (Verdict.mem_of_firstOther_eq_error failed)
        refine (ih child member fills failed).of_part (fun isScoped => ?_) fun isSorted => ?_
        · cases isScoped with
          | connective _ each => exact each child member
        · cases isSorted with
          | connective _ each => exact each child member
  | negation inner ih =>
      rw [meaning] at failed
      cases verdict : inner.meaning environment with
      | ok value =>
          rw [verdict] at failed
          cases failed
      | error own =>
          rw [verdict] at failed
          cases failed
          exact (ih fills verdict).of_part (fun isScoped => by cases isScoped; assumption)
            fun isSorted => by cases isSorted; assumption
  | comparison kind lhs rhs =>
      rw [meaning] at failed
      rcases Fallible.bind_eq_error_iff.mp failed with failed | ⟨first, -, failed⟩
      · exact (dueTo_of_operand fills failed).of_part
          (fun isScoped => by cases isScoped; assumption)
          fun isSorted => by cases isSorted; assumption
      · rcases Fallible.bind_eq_error_iff.mp failed with failed | ⟨second, -, failed⟩
        · exact (dueTo_of_operand fills failed).of_part
            (fun isScoped => by cases isScoped; assumption)
            fun isSorted => by cases isSorted; assumption
        · exact .document (dependsOnDocument_of_compareScalars failed)
  | field slot path =>
      cases failed
      exact .place _ fun isSorted => by cases isSorted
  | literal value =>
      cases failed
      exact .place _ fun isSorted => by cases isSorted
  | quantifier kind slot source predicate _ ih =>
      cases joins : kind.neutral? with
      | none =>
          cases kind with
          | anyEvery =>
              cases failed
              refine .place _ fun isSorted => ?_
              cases isSorted with
              | quantifier meaningful => exact meaningful rfl
          | _ => cases joins
      | some neutral =>
          rw [meaning_quantifier joins] at failed
          rcases Fallible.bind_eq_error_iff.mp failed with failed | ⟨items, -, failed⟩
          · exact (dueTo_of_elements fills failed).of_part
              (fun isScoped => by cases isScoped; assumption)
              fun isSorted => by cases isSorted; assumption
          · obtain ⟨item, -, failed⟩ :=
              List.mem_map.mp (Verdict.mem_of_firstOther_eq_error failed)
            exact (ih (fills.put slot item) failed).of_part
              (fun isScoped => by cases isScoped; assumption)
              fun isSorted => by cases isSorted; assumption

end Expression

namespace Evaluation

/-- A filter whose fields start at filled slots and whose parts all have a meaning fails, given
enough levels and time, on account of the document only. -/
theorem wellFormed_filters_fail_only_on_documents {depthLimit : Nat} {filter : Expression}
    (wellScoped : filter.WellScoped [rootSlot]) (wellSorted : filter.WellSorted)
    (within : filter.depth ≤ depthLimit) (document : Json.Value) :
    (∃ value, verdictOn ⟨depthLimit, false⟩ document filter = .ok value) ∨
      ∃ error, verdictOn ⟨depthLimit, false⟩ document filter = .error error ∧
        error.DependsOnDocument := by
  have fills : (Environment.ofDocument document).Fills [rootSlot] := by
    intro slot filled
    obtain rfl := List.mem_singleton.mp filled
    exact ⟨document, rfl⟩
  rw [verdictOn, judge_eq_meaning document rfl within]
  cases verdict : filter.meaning (Environment.ofDocument document) with
  | ok value => exact Or.inl ⟨value, rfl⟩
  | error error =>
      refine Or.inr ⟨error, rfl, ?_⟩
      cases Expression.dueTo_of_meaning fills verdict with
      | document depends => exact depends
      | slot slot unscoped => exact absurd wellScoped unscoped
      | place misplacement unsorted => exact absurd wellSorted unsorted

/-- Some row has only numbers below three.  The inner quantifier may fill the slot of the outer one
again. -/
theorem someRowBelowThree_fails_only_on_documents :
    let filter := Expression.quantifier .any 1 (.field 0 "rows")
      (.quantifier .every 1 (.field 1 "") (.comparison .less (.field 1 "") (.literal (.integer 3))))
    filter.WellScoped [rootSlot] ∧ filter.WellSorted ∧ filter.depth ≤ 4 ∧
      ∀ document, (∃ value, verdictOn ⟨4, false⟩ document filter = .ok value) ∨
        ∃ error, verdictOn ⟨4, false⟩ document filter = .error error ∧
          error.DependsOnDocument := by
  intro filter
  have wellScoped : filter.WellScoped [rootSlot] :=
    .quantifier _ _ (.field _ (by decide)) (.quantifier _ _ (.field _ (by decide))
      (.comparison _ (.field _ (by decide)) (.literal _)))
  have wellSorted : filter.WellSorted :=
    .quantifier (by decide) _ (.field _ _) (.quantifier (by decide) _ (.field _ _)
      (.comparison _ (.field _ _) (.literal _)))
  exact ⟨wellScoped, wellSorted, by decide,
    wellFormed_filters_fail_only_on_documents wellScoped wellSorted (by decide)⟩

end Evaluation

end JsonSieve
