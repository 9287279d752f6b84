import JsonSieve.Proofs.Evaluation.Frame
import Mathlib

/-!
# The meaning of filters

A filter means a verdict in an environment, which says what every slot holds.  The meaning
knows neither a stack nor a count of levels: a quantifier ranges over the elements of its source
in environments that differ from the one outside in a single slot, and a connective joins
the meanings of its children.

The main statement is that an evaluation with enough levels and enough time arrives at exactly
this verdict and leaves its bindings as they were.  A stack of bindings stands for the
environment that looks slots up in it, and every operation of the evaluation is matched with the
operation on environments.
-/

namespace JsonSieve

/-- What every slot holds, if it holds anything. -/
abbrev Environment := Nat → Option Json.Value

namespace Environment

def ofDocument (document : Json.Value) : Environment :=
  fun slot => if slot = rootSlot then some document else none

/-- The environment that differs from another one in what a single slot holds. -/
def put (environment : Environment) (slot : Nat) (value : Json.Value) : Environment :=
  fun other => if other = slot then some value else environment other

@[simp]
theorem put_self (environment : Environment) (slot : Nat) (value : Json.Value) :
    environment.put slot value slot = some value :=
  if_pos rfl

theorem put_of_ne {slot other : Nat} (different : other ≠ slot) (environment : Environment)
    (value : Json.Value) : environment.put slot value other = environment other :=
  if_neg different

def fieldValue (environment : Environment) (slot : Nat) (path : String) :
    Except EvaluationError Json.Value :=
  match environment slot with
  | some value => (Path.resolve value path).mapError .path
  | none => .error (.unboundSlot slot)

def operand (environment : Environment) : Expression → Except EvaluationError Scalar
  | .field slot path => do
      let value ← environment.fieldValue slot path
      match Scalar.ofJson? value with
      | some scalar => .ok scalar
      | none => .error (.notScalar value.kind)
  | .literal value => .ok value
  | _ => .error (.unsupported .conditionAsOperand)

def elements (environment : Environment) :
    Expression → Except EvaluationError (List Json.Value)
  | .field slot path => do
      match ← environment.fieldValue slot path with
      | .array items => .ok items
      | value => .error (.notArray value.kind)
  | .literal value => .error (.constantSource value.kind)
  | _ => .error (.unsupported .conditionAsSource)

end Environment

namespace Expression

mutual

/-- The verdict that a condition means in an environment. -/
def meaning (environment : Environment) : Expression → Verdict
  | .constant value => .ok value
  | .connective .conjunction children =>
      if children.isEmpty then .ok false
      else Verdict.firstOther true (meanings environment children)
  | .connective .disjunction children => Verdict.firstOther false (meanings environment children)
  | .negation inner => (meaning environment inner).map (fun verdict => !verdict)
  | .comparison kind lhs rhs => do
      let first ← environment.operand lhs
      let second ← environment.operand rhs
      Evaluation.compareScalars kind first second
  | .field _ _ => .error (.unsupported .fieldAsCondition)
  | .literal _ => .error (.unsupported .literalAsCondition)
  | .quantifier .any slot source predicate => do
      let items ← environment.elements source
      Verdict.firstOther false
        (items.map (fun item => meaning (environment.put slot item) predicate))
  | .quantifier .every slot source predicate => do
      let items ← environment.elements source
      Verdict.firstOther true
        (items.map (fun item => meaning (environment.put slot item) predicate))
  | .quantifier .anyEvery _ _ _ => .error (.unsupported .anyEveryQuantifier)

def meanings (environment : Environment) : List Expression → List Verdict
  | [] => []
  | child :: children => meaning environment child :: meanings environment children

end

theorem meanings_eq_map (environment : Environment) (children : List Expression) :
    meanings environment children = children.map (meaning environment) := by
  induction children with
  | nil => rfl
  | cons child children ih => simp [meanings, ih]

/-- A connective means the meanings of its children, joined; without children it is false. -/
theorem meaning_connective (environment : Environment) (kind : Connective)
    (children : List Expression) :
    (connective kind children).meaning environment =
      if children.isEmpty then .ok false
      else Verdict.firstOther kind.neutral (children.map (meaning environment)) := by
  cases kind with
  | conjunction => rw [meaning, meanings_eq_map]; rfl
  | disjunction =>
      rw [meaning, meanings_eq_map]
      cases children <;> rfl

/-- A quantifier means the meanings of its predicate for the elements of its source, joined. -/
theorem meaning_quantifier {kind : Quantifier} {neutral : Bool}
    (meaningful : kind.neutral? = some neutral) (environment : Environment) (slot : Nat)
    (source predicate : Expression) :
    (quantifier kind slot source predicate).meaning environment =
      environment.elements source >>= fun items => Verdict.firstOther neutral
        (items.map (fun item => predicate.meaning (environment.put slot item))) := by
  cases kind with
  | any => cases meaningful; rfl
  | every => cases meaningful; rfl
  | anyEvery => cases meaningful

end Expression

namespace Evaluation

/-- The environment for which a stack of bindings stands: the newest binding of a slot counts. -/
def environmentOf (bindings : Bindings) : Environment :=
  fun slot => (bindings.find? (fun binding => binding.1 = slot)).map Prod.snd

theorem environmentOf_initial (document : Json.Value) :
    environmentOf (initial document) = Environment.ofDocument document := by
  funext slot
  by_cases root : slot = rootSlot
  · simp [environmentOf, initial, Environment.ofDocument, root]
  · simp [environmentOf, initial, Environment.ofDocument, root, Ne.symm root]

theorem environmentOf_cons (slot : Nat) (value : Json.Value) (bindings : Bindings) :
    environmentOf ((slot, value) :: bindings) = (environmentOf bindings).put slot value := by
  funext other
  by_cases same : other = slot
  · simp [environmentOf, Environment.put, same]
  · simp [environmentOf, Environment.put, same, Ne.symm same]

theorem fieldValue_eq (bindings : Bindings) (slot : Nat) (path : String) :
    fieldValue bindings slot path = (environmentOf bindings).fieldValue slot path := by
  simp only [fieldValue, lookup, Environment.fieldValue, environmentOf]
  cases bindings.find? (fun binding => binding.1 = slot) with
  | none => rfl
  | some binding => rfl

theorem operand_eq (bindings : Bindings) (expression : Expression) :
    operand bindings expression = (environmentOf bindings).operand expression := by
  cases expression with
  | field slot path =>
      rw [operand, fieldValue_eq]
      rfl
  | _ => rfl

theorem elements_eq (bindings : Bindings) (source : Expression) :
    elements bindings source = (environmentOf bindings).elements source := by
  cases source with
  | field slot path =>
      rw [elements, fieldValue_eq]
      rfl
  | _ => rfl

theorem not_tooDeep {limits : Limits} {depth : Nat} {expression : Expression}
    (within : depth + expression.depth ≤ limits.depthLimit + 1) :
    ¬ limits.depthLimit < depth := by
  have := expression.depth_pos
  omega

theorem within_part {limits : Limits} {depth : Nat} {part expression : Expression}
    (within : depth + expression.depth ≤ limits.depthLimit + 1)
    (member : part ∈ expression.parts) : depth + 1 + part.depth ≤ limits.depthLimit + 1 := by
  have := Expression.depth_part_lt member
  omega

/-- An evaluation that may descend far enough and has time gives the meaning of the condition in
the environment of its bindings, and keeps them. -/
theorem evaluate_eq_meaning {limits : Limits} (inTime : limits.expired = false)
    {expression : Expression} (depth : Nat) (bindings : Bindings)
    (within : depth + expression.depth ≤ limits.depthLimit + 1) :
    evaluate limits depth expression bindings =
      (expression.meaning (environmentOf bindings), bindings) := by
  induction expression generalizing depth bindings with
  | constant value => exact evaluate_constant (not_tooDeep within) bindings value
  | connective kind children ih =>
      have each : ∀ child ∈ children, (evaluate limits (depth + 1) child bindings).1 =
          child.meaning (environmentOf bindings) := by
        intro child member
        rw [ih child member (depth + 1) bindings (within_part within member)]
      rw [evaluate_connective (not_tooDeep within), Expression.meaning_connective,
        List.map_congr_left each]
  | negation inner ih =>
      rw [evaluate_negation (not_tooDeep within),
        ih (depth + 1) bindings (within_part within (by simp [Expression.parts]))]
      rfl
  | comparison kind lhs rhs =>
      rw [evaluate_comparison (not_tooDeep within), compareOperands, operand_eq, operand_eq]
      rfl
  | field slot path => exact evaluate_field (not_tooDeep within) bindings slot path
  | literal value => exact evaluate_literal (not_tooDeep within) bindings value
  | quantifier kind slot source predicate _ ih =>
      cases joins : kind.neutral? with
      | none =>
          rw [evaluate_meaningless (not_tooDeep within) joins]
          cases kind with
          | anyEvery => rfl
          | _ => cases joins
      | some neutral =>
          -- The source is resolved outside, so only the predicate needs the induction hypothesis.
          have each : ∀ item,
              (evaluate limits (depth + 1) predicate ((slot, item) :: bindings)).1 =
                predicate.meaning ((environmentOf bindings).put slot item) := by
            intro item
            rw [ih (depth + 1) _ (within_part within (by simp [Expression.parts])),
              environmentOf_cons]
          rw [evaluate_quantifier (not_tooDeep within) joins,
            Expression.meaning_quantifier joins, elements_eq]
          simp only [inTime, Bool.false_and, Bool.false_eq_true, if_false, each]

/-- Within its limits a filter has, on every document, exactly the verdict that it means in the
environment of that document, the first error in order included, and leaves no binding
behind. -/
theorem judge_eq_meaning {limits : Limits} {filter : Expression} (document : Json.Value)
    (inTime : limits.expired = false) (within : filter.depth ≤ limits.depthLimit) :
    judge limits filter (initial document) =
      (filter.meaning (Environment.ofDocument document), initial document) := by
  have evaluated := evaluate_eq_meaning inTime 1 (initial document)
    (show 1 + filter.depth ≤ limits.depthLimit + 1 by omega)
  rw [environmentOf_initial] at evaluated
  cases filter with
  | constant value => rfl
  | _ => exact evaluated

/-- Some row has only numbers below three.  The inner quantifier fills the slot of the outer one
again, and the levels of the filter are just those of the limit. -/
theorem judge_someRowBelowThree :
    let document := Json.Value.object [("rows", .array [
      .array [.number (.integer 1), .number (.integer 4)],
      .array [.number (.integer 2)]])]
    let filter := Expression.quantifier .any 1 (.field 0 "rows")
      (.quantifier .every 1 (.field 1 "") (.comparison .less (.field 1 "") (.literal (.integer 3))))
    let limits : Limits := ⟨4, false⟩
    limits.expired = false ∧ filter.depth ≤ limits.depthLimit ∧
      judge limits filter (initial document) = (.ok true, initial document) := by
  intro document filter limits
  have rows : (Environment.ofDocument document).fieldValue 0 "rows" = .ok (.array [
      .array [.number (.integer 1), .number (.integer 4)],
      .array [.number (.integer 2)]]) := by cbv
  have item : ∀ (environment : Environment) value,
      (environment.put 1 value).fieldValue 1 "" = .ok value := by
    intro environment value
    cbv
  have verdict : filter.meaning (Environment.ofDocument document) = .ok true := by
    simp only [filter, Expression.meaning, Environment.elements, Environment.operand, rows, item]
    rfl
  refine ⟨rfl, by decide, ?_⟩
  rw [judge_eq_meaning document rfl (by decide), verdict]

end Evaluation

end JsonSieve
