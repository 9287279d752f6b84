import JsonSieve.Path
import JsonSieve.Scalar

/-!
# Errors of an evaluation

Why a filter has no verdict on a document, and the messages that say so.
-/

namespace JsonSieve

/-- Expressions that stand where they have no meaning. -/
inductive Misplacement
  | anyEveryQuantifier
  | fieldAsCondition
  | literalAsCondition
  | conditionAsOperand
  | conditionAsSource
  deriving DecidableEq

def Misplacement.description : Misplacement → String
  | .anyEveryQuantifier => "`anyeveryin` has no evaluation rule"
  | .fieldAsCondition => "`field` used as a condition"
  | .literalAsCondition => "`value` used as a condition"
  | .conditionAsOperand => "comparison operands must be `field` or `value`"
  | .conditionAsSource => "quantifier source must be a `field`"

/-- Why a filter has no verdict on a document. -/
inductive EvaluationError
  /-- The document is not JSON. -/
  | malformedDocument
  /-- A path leads nowhere or cannot be read. -/
  | path (error : Path.Error)
  /-- Scalars of different families are compared. -/
  | mismatch (comparison : Comparison) (lhs rhs : Scalar.Kind)
  /-- An array or an object is compared. -/
  | notScalar (kind : Json.Kind)
  /-- A quantifier ranges over a value that is no array. -/
  | notArray (kind : Json.Kind)
  /-- A quantifier ranges over a constant. -/
  | constantSource (kind : Scalar.Kind)
  /-- A field starts at a slot that holds nothing. -/
  | unboundSlot (slot : Nat)
  /-- An expression stands where it has no meaning. -/
  | unsupported (misplacement : Misplacement)
  /-- The filter is nested more deeply than allowed. -/
  | tooDeep (limit : Nat)
  /-- The time allowed for a document is over. -/
  | outOfTime
  deriving DecidableEq

def EvaluationError.message : EvaluationError → String
  | .malformedDocument => "Invalid document"
  | .path (.missing whole) => "No such field: " ++ whole
  | .path (.malformed rest) => "Invalid field path: " ++ rest
  | .mismatch comparison lhs rhs =>
      "Cannot apply `" ++ comparison.name ++ "` to " ++ lhs.name ++ " and " ++ rhs.name
  | .notScalar kind => "A value of type " ++ kind.name ++ " cannot be compared"
  | .notArray kind => "Quantifier source is " ++ kind.name ++ ", expected array"
  | .constantSource kind => "Quantifier source is " ++ kind.name ++ ", expected array"
  | .unboundSlot slot => "Slot " ++ toString slot ++ " is not bound"
  | .unsupported misplacement => "Unsupported: " ++ misplacement.description
  | .tooDeep limit => "Evaluation exceeded depth limit of " ++ toString limit
  | .outOfTime => "Evaluation time budget exceeded"

end JsonSieve
