import JsonSieve.Proofs.Evaluation.Agreement

/-!
# Levels of an evaluation

An evaluation compares its depth with its limit and nothing else.  So it is the number of levels
still allowed that counts: an evaluation that begins deeper and may go equally further reaches
the same verdict, and fails exactly where the other one does.  Only the limit that an error names
can differ, which is why verdicts are compared here without their errors.
-/

namespace JsonSieve

/-- An error that does not say how many levels are allowed. -/
def EvaluationError.withoutLimit : EvaluationError → EvaluationError
  | .tooDeep _ => .tooDeep 0
  | error => error

theorem Verdict.toOption_mapError (view : EvaluationError → EvaluationError) (verdict : Verdict) :
    (verdict.mapError view).toOption = verdict.toOption := by
  cases verdict <;> rfl

namespace Evaluation

/-- Evaluations with equally many levels left reach the same verdict, if any. -/
theorem toOption_evaluate_eq {limits other : Limits} {depth otherDepth : Nat}
    (sameTime : limits.expired = other.expired)
    (sameLevels : limits.depthLimit + otherDepth = other.depthLimit + depth)
    (expression : Expression) (bindings : Bindings) :
    (evaluate limits depth expression bindings).1.toOption =
      (evaluate other otherDepth expression bindings).1.toOption := by
  have alike : Alike .withoutLimit (environmentOf bindings) expression
      (environmentOf bindings) expression := .of_fieldsAlike fun _ _ _ => rfl
  have inStep : InStep .withoutLimit limits depth other otherDepth := ⟨sameTime, sameLevels, rfl⟩
  have verdicts := congrArg Except.toOption (alike.mapError_evaluate inStep rfl rfl)
  rwa [Verdict.toOption_mapError, Verdict.toOption_mapError] at verdicts

end Evaluation

end JsonSieve
