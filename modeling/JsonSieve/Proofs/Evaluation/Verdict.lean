import JsonSieve.Evaluation

/-!
# Joined verdicts

The verdicts of parts are joined in order: the first one that is not neutral decides, be it a truth
value or an error, and if all are neutral then so is the whole.  Connectives join the verdicts of
their children in this way, and quantifiers those on the elements of an array.
-/

namespace JsonSieve

/-- What comes of a condition: a truth value, or the first error. -/
abbrev Verdict := Except EvaluationError Bool

namespace Verdict

def is (value : Bool) : Verdict → Bool
  | .ok verdict => verdict = value
  | .error _ => false

/-- The first verdict other than the neutral truth value, or that value if there is none. -/
def firstOther (neutral : Bool) (verdicts : List Verdict) : Verdict :=
  (verdicts.find? (fun verdict => !verdict.is neutral)).getD (.ok neutral)

@[simp]
theorem firstOther_nil (neutral : Bool) : firstOther neutral [] = .ok neutral :=
  rfl

@[simp]
theorem firstOther_cons_error (neutral : Bool) (error : EvaluationError)
    (verdicts : List Verdict) : firstOther neutral (.error error :: verdicts) = .error error :=
  rfl

theorem firstOther_cons_ok (neutral value : Bool) (verdicts : List Verdict) :
    firstOther neutral (.ok value :: verdicts) =
      if value = neutral then firstOther neutral verdicts else .ok value := by
  by_cases same : value = neutral <;> simp [firstOther, is, same]

end Verdict

/-- The verdict of parts that leaves a connective undecided. -/
def Connective.neutral : Connective → Bool
  | .conjunction => true
  | .disjunction => false

/-- The verdict on an element that leaves a quantifier undecided, if the quantifier has a
meaning. -/
def Quantifier.neutral? : Quantifier → Option Bool
  | .any => some false
  | .every => some true
  | .anyEvery => none

end JsonSieve
