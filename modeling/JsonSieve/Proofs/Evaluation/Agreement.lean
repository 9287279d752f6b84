import JsonSieve.Proofs.Evaluation.Meaning
import JsonSieve.Proofs.Fallible

/-!
# Conditions that are evaluated alike

An evaluation meets its bindings only in fields.  So two conditions of one shape, each with an
environment of its own, are evaluated alike if their fields name the same values: first the fields
outside of all quantifiers, and then, with any item in the slots that the quantifiers fill, those in
the predicates.  Errors are compared through a view, which can leave out what is meant to differ.

The depths and the limits of the two evaluations may differ too, as long as they have equally many
levels left.
-/

namespace JsonSieve

theorem Verdict.mapError_firstOther (view : EvaluationError → EvaluationError) (neutral : Bool)
    (verdicts : List Verdict) :
    (firstOther neutral verdicts).mapError view =
      firstOther neutral (verdicts.map (·.mapError view)) := by
  induction verdicts with
  | nil => rfl
  | cons verdict verdicts ih =>
      rw [List.map_cons]
      cases verdict with
      | error error => rfl
      | ok value =>
          change _ = firstOther neutral (.ok value :: _)
          rw [firstOther_cons_ok, firstOther_cons_ok, ← ih]
          split <;> rfl

/-- Two evaluations have equally many levels and equally much time left, and if they run out of
levels then they fail with errors that look alike. -/
structure InStep (view : EvaluationError → EvaluationError) (limits : Limits) (depth : Nat)
    (further : Limits) (otherDepth : Nat) : Prop where
  sameTime : limits.expired = further.expired
  sameLevels : limits.depthLimit + otherDepth = further.depthLimit + depth
  sameStop : view (.tooDeep limits.depthLimit) = view (.tooDeep further.depthLimit)

namespace InStep

open Evaluation

variable {view : EvaluationError → EvaluationError} {limits further : Limits}
  {depth otherDepth : Nat}

theorem refl (limits : Limits) (depth : Nat) : InStep view limits depth limits depth :=
  ⟨rfl, rfl, rfl⟩

theorem next (inStep : InStep view limits depth further otherDepth) :
    InStep view limits (depth + 1) further (otherDepth + 1) := by
  have sameLevels := inStep.sameLevels
  exact ⟨inStep.sameTime, by omega, inStep.sameStop⟩

theorem of_within (inStep : InStep view limits depth further otherDepth)
    {expression other : Expression} {bindings others : Bindings}
    (within : ¬limits.depthLimit < depth → ¬further.depthLimit < otherDepth →
      (evaluate limits depth expression bindings).1.mapError view =
        (evaluate further otherDepth other others).1.mapError view) :
    (evaluate limits depth expression bindings).1.mapError view =
      (evaluate further otherDepth other others).1.mapError view := by
  have sameLevels := inStep.sameLevels
  by_cases tooDeep : limits.depthLimit < depth
  · rw [evaluate_of_tooDeep tooDeep, evaluate_of_tooDeep (by omega)]
    exact congrArg Except.error inStep.sameStop
  · exact within tooDeep (by omega)

end InStep

/-- Conditions of one shape whose fields name values that look alike, each in its own
environment. -/
inductive Alike (view : EvaluationError → EvaluationError) :
    Environment → Expression → Environment → Expression → Prop
  | constant {here there : Environment} (value : Bool) :
      Alike view here (.constant value) there (.constant value)
  | connective {here there : Environment} (kind : Connective) {children : List Expression}
      {other : Expression → Expression}
      (each : ∀ child ∈ children, Alike view here child there (other child)) :
      Alike view here (.connective kind children) there (.connective kind (children.map other))
  | negation {here there : Environment} {inner other : Expression}
      (inside : Alike view here inner there other) :
      Alike view here (.negation inner) there (.negation other)
  | comparison {here there : Environment} (kind : Comparison)
      {lhs rhs otherLhs otherRhs : Expression} (left : Alike view here lhs there otherLhs)
      (right : Alike view here rhs there otherRhs) :
      Alike view here (.comparison kind lhs rhs) there (.comparison kind otherLhs otherRhs)
  | field {here there : Environment} {slot other : Nat} {path otherPath : String}
      (named : (here.fieldValue slot path).mapError view =
        (there.fieldValue other otherPath).mapError view) :
      Alike view here (.field slot path) there (.field other otherPath)
  | literal {here there : Environment} (value : Scalar) :
      Alike view here (.literal value) there (.literal value)
  | quantifier {here there : Environment} (kind : Quantifier) {slot other : Nat}
      {source predicate otherSource otherPredicate : Expression}
      (outside : Alike view here source there otherSource)
      (inside : ∀ item,
        Alike view (here.put slot item) predicate (there.put other item) otherPredicate) :
      Alike view here (.quantifier kind slot source predicate) there
        (.quantifier kind other otherSource otherPredicate)

/-- The fields of an expression name values that look alike in two environments. -/
def FieldsAlike (view : EvaluationError → EvaluationError) (here there : Environment)
    (expression : Expression) : Prop :=
  ∀ slot path, .field slot path ∈ expression.nodes →
    (here.fieldValue slot path).mapError view = (there.fieldValue slot path).mapError view

namespace FieldsAlike

variable {view : EvaluationError → EvaluationError} {here there : Environment}
  {expression inner : Expression}

theorem part (fields : FieldsAlike view here there expression)
    (member : inner ∈ expression.parts) : FieldsAlike view here there inner :=
  fun slot path occurs => fields slot path (Expression.mem_nodes_of_part member occurs)

/-- With the same item in a slot, the fields of this slot name the same parts of the item, and all
others what they named before. -/
theorem put (fields : FieldsAlike view here there expression) (slot : Nat) (item : Json.Value) :
    FieldsAlike view (here.put slot item) (there.put slot item) expression := by
  intro other path occurs
  have before := fields other path occurs
  by_cases same : other = slot
  · simp only [Environment.fieldValue, same, Environment.put_self]
  · simpa only [Environment.fieldValue, Environment.put_of_ne same] using before

end FieldsAlike

namespace Alike

open Evaluation Fallible

variable {view : EvaluationError → EvaluationError} {here there : Environment}
  {expression other : Expression}

theorem operand (alike : Alike view here expression there other) :
    (here.operand expression).mapError view = (there.operand other).mapError view := by
  cases alike with
  | field named =>
      rw [Environment.operand, Environment.operand, mapError_bind, mapError_bind, named]
  | _ => rfl

theorem elements (alike : Alike view here expression there other) :
    (here.elements expression).mapError view = (there.elements other).mapError view := by
  cases alike with
  | field named =>
      rw [Environment.elements, Environment.elements, mapError_bind, mapError_bind, named]
  | _ => rfl

/-- Alike conditions have verdicts that look alike, if they are evaluated in step. -/
theorem mapError_evaluate (alike : Alike view here expression there other) {limits further : Limits}
    {depth otherDepth : Nat} (inStep : InStep view limits depth further otherDepth)
    {bindings others : Bindings} (own : environmentOf bindings = here)
    (foreign : environmentOf others = there) :
    (evaluate limits depth expression bindings).1.mapError view =
      (evaluate further otherDepth other others).1.mapError view := by
  -- The environments change together in the predicate of a quantifier.
  induction alike generalizing depth otherDepth bindings others with
  | constant value =>
      refine inStep.of_within fun within otherWithin => ?_
      rw [evaluate_constant within, evaluate_constant otherWithin]
  | @connective here there kind children other each ih =>
      refine inStep.of_within fun within otherWithin => ?_
      rw [evaluate_connective within, evaluate_connective otherWithin]
      dsimp only
      rw [List.isEmpty_map]
      split
      · rfl
      · rw [Verdict.mapError_firstOther, Verdict.mapError_firstOther, List.map_map, List.map_map,
          List.map_map]
        exact congrArg _ (List.map_congr_left fun child member =>
          ih child member inStep.next own foreign)
  | negation inside ih =>
      refine inStep.of_within fun within otherWithin => ?_
      rw [evaluate_negation within, evaluate_negation otherWithin, mapError_map, mapError_map,
        ih inStep.next own foreign]
  | comparison kind left right =>
      refine inStep.of_within fun within otherWithin => ?_
      rw [evaluate_comparison within, evaluate_comparison otherWithin]
      simp only [compareOperands, operand_eq, own, foreign, mapError_bind, left.operand,
        right.operand]
  | field named =>
      refine inStep.of_within fun within otherWithin => ?_
      rw [evaluate_field within, evaluate_field otherWithin]
  | literal value =>
      refine inStep.of_within fun within otherWithin => ?_
      rw [evaluate_literal within, evaluate_literal otherWithin]
  | @quantifier here there kind slot other source predicate otherSource otherPredicate outside
      inside _ ih =>
      refine inStep.of_within fun within otherWithin => ?_
      cases joins : kind.neutral? with
      | none => rw [evaluate_meaningless within joins, evaluate_meaningless otherWithin joins]
      | some neutral =>
          have each : ∀ item,
              (evaluate limits (depth + 1) predicate ((slot, item) :: bindings)).1.mapError view =
              (evaluate further (otherDepth + 1) otherPredicate
                ((other, item) :: others)).1.mapError view := by
            intro item
            refine ih item inStep.next ?_ ?_
            · rw [environmentOf_cons, own]
            · rw [environmentOf_cons, foreign]
          rw [evaluate_quantifier within joins, evaluate_quantifier otherWithin joins,
            mapError_bind, mapError_bind, elements_eq, elements_eq, own, foreign,
            outside.elements, inStep.sameTime]
          refine congrArg _ (funext fun items => ?_)
          split
          · rfl
          · rw [Verdict.mapError_firstOther, Verdict.mapError_firstOther, List.map_map,
              List.map_map]
            exact congrArg _ (List.map_congr_left fun item _ => each item)

theorem of_fieldsAlike (fields : FieldsAlike view here there expression) :
    Alike view here expression there expression := by
  induction expression generalizing here there with
  | constant value => exact .constant value
  | connective kind children ih =>
      have each : ∀ child ∈ children, Alike view here child there (id child) :=
        fun child member => ih child member (fields.part member)
      simpa only [List.map_id] using connective kind each
  | negation inner ih => exact .negation (ih (fields.part (by simp [Expression.parts])))
  | comparison kind lhs rhs lhsIH rhsIH =>
      exact .comparison kind (lhsIH (fields.part (by simp [Expression.parts])))
        (rhsIH (fields.part (by simp [Expression.parts])))
  | field slot path => exact .field (fields slot path (by simp [Expression.nodes]))
  | literal value => exact .literal value
  | quantifier kind slot source predicate sourceIH predicateIH =>
      have inSource : FieldsAlike view here there source :=
        fields.part (by simp [Expression.parts])
      have inPredicate : FieldsAlike view here there predicate :=
        fields.part (by simp [Expression.parts])
      exact .quantifier kind (sourceIH inSource)
        fun item => predicateIH (inPredicate.put slot item)

theorem mapError_verdictOn {document another : Json.Value}
    (alike : Alike view (.ofDocument document) expression (.ofDocument another) other)
    (limits : Limits) :
    (verdictOn limits document expression).mapError view =
      (verdictOn limits another other).mapError view := by
  have evaluated := alike.mapError_evaluate (.refl limits 1) (environmentOf_initial document)
    (environmentOf_initial another)
  cases alike with
  | constant value => rfl
  | _ => exact evaluated

end Alike

end JsonSieve
