import JsonSieve.Proofs.Evaluation.Agreement
import JsonSieve.Proofs.Evaluation.Numbers
import JsonSieve.Proofs.Expression.Reread

/-!
# Negation pushed to the leaves

The negation of a condition can be written without a negation around it: connectives,
quantifiers and inequalities turn into their duals, with their conditions negated in turn, and only
where there is no dual does a negation remain.  Both forms reach the same verdict, since the
conditions are evaluated in the same order and the first that decides the one decides the other.
For the same reason they fail together, and only the name of an inequality in an error differs.

A connective without children is false under both names, so that it has no dual, and what is no
number is neither less nor greater.
-/

namespace JsonSieve

/-- The connective of negated conditions that is the negation of a connective. -/
def Connective.dual : Connective → Connective
  | .conjunction => .disjunction
  | .disjunction => .conjunction

theorem Connective.neutral_dual (kind : Connective) : kind.dual.neutral = !kind.neutral := by
  cases kind <;> rfl

namespace Expression

mutual

/-- The negation of an expression, pushed inwards as far as it goes. -/
def opposite : Expression → Expression
  | .constant value => .constant (!value)
  | .connective kind children => .connective kind.dual (opposites children)
  | .negation inner => inner
  | .comparison .equal lhs rhs => .negation (.comparison .equal lhs rhs)
  | .comparison .less lhs rhs => .comparison .greaterOrEqual lhs rhs
  | .comparison .greaterOrEqual lhs rhs => .comparison .less lhs rhs
  | .field slot path => .negation (.field slot path)
  | .literal value => .negation (.literal value)
  | .quantifier .any slot source predicate => .quantifier .every slot source predicate.opposite
  | .quantifier .every slot source predicate => .quantifier .any slot source predicate.opposite
  | .quantifier .anyEvery slot source predicate =>
      .negation (.quantifier .anyEvery slot source predicate)

def opposites : List Expression → List Expression
  | [] => []
  | child :: children => child.opposite :: opposites children

end

theorem opposites_eq_map (children : List Expression) :
    opposites children = children.map opposite := by
  induction children with
  | nil => rfl
  | cons child children ih => rw [opposites, ih, List.map_cons]

/-- Every connective joins something. -/
def JoinsSomething (expression : Expression) : Prop :=
  ∀ kind, .connective kind [] ∉ expression.nodes

theorem JoinsSomething.part {expression part : Expression} (joins : expression.JoinsSomething)
    (member : part ∈ expression.parts) : part.JoinsSomething :=
  fun kind occurs => joins kind (mem_nodes_of_part member occurs)

theorem depth_opposite_le {expression : Expression} {bound : Nat}
    (within : expression.depth ≤ bound) : expression.opposite.depth ≤ bound + 1 := by
  induction expression generalizing bound with
  | connective kind children ih =>
      obtain ⟨bound, rfl⟩ := Nat.exists_eq_add_one_of_ne_zero
        (Nat.ne_of_gt ((depth_pos _).trans_le within))
      have each := depth_le_succ_iff.mp within
      rw [opposite, opposites_eq_map]
      exact depth_le_succ_iff.mpr (List.forall_mem_map.mpr fun child member =>
        ih child member (each child member))
  | quantifier kind slot source predicate _ ih =>
      cases kind with
      | anyEvery => rw [opposite, depth]; omega
      | _ =>
          obtain ⟨bound, rfl⟩ := Nat.exists_eq_add_one_of_ne_zero
            (Nat.ne_of_gt ((depth_pos _).trans_le within))
          simp only [depth] at within
          have inside : predicate.opposite.depth ≤ bound + 1 := ih (by omega)
          simp only [opposite, depth]
          omega
  | comparison kind lhs rhs =>
      cases kind <;> simp only [opposite, depth] at within ⊢ <;> omega
  | _ => simp only [opposite, depth] at within ⊢; omega

end Expression

/-- An error that does not say which comparison was asked for. -/
def EvaluationError.withoutComparison : EvaluationError → EvaluationError
  | .mismatch _ lhs rhs => .mismatch .equal lhs rhs
  | error => error

def Verdict.opposite (verdict : Verdict) : Verdict :=
  verdict.map (fun value => !value)

namespace Verdict

@[simp]
theorem opposite_ok (value : Bool) : opposite (.ok value) = .ok (!value) :=
  rfl

@[simp]
theorem opposite_error (error : EvaluationError) : opposite (.error error) = .error error :=
  rfl

@[simp]
theorem opposite_opposite (verdict : Verdict) : verdict.opposite.opposite = verdict := by
  cases verdict <;> simp

theorem mapError_opposite (view : EvaluationError → EvaluationError) (verdict : Verdict) :
    verdict.opposite.mapError view = Verdict.opposite (verdict.mapError view) :=
  Fallible.mapError_map view _ verdict

theorem opposite_firstOther (neutral : Bool) (verdicts : List Verdict) :
    (firstOther neutral verdicts).opposite = firstOther (!neutral) (verdicts.map opposite) := by
  induction verdicts with
  | nil => rfl
  | cons verdict verdicts ih =>
      rw [List.map_cons]
      cases verdict with
      | error error => rfl
      | ok value =>
          rw [opposite_ok, firstOther_cons_ok, firstOther_cons_ok, ← ih]
          cases value <;> cases neutral <;> rfl

end Verdict

/-- Conditions that look like the opposites of others, in order, are joined to what looks like the
opposite. -/
theorem Verdict.mapError_firstOther_opposite {Condition : Type} {neutral : Bool}
    {conditions : List Condition} {verdict negated : Condition → Verdict}
    {view : EvaluationError → EvaluationError}
    (each : ∀ condition ∈ conditions,
      (negated condition).mapError view = (verdict condition).opposite.mapError view) :
    (firstOther (!neutral) (conditions.map negated)).mapError view =
      (firstOther neutral (conditions.map verdict)).opposite.mapError view := by
  rw [opposite_firstOther, mapError_firstOther, mapError_firstOther, List.map_map, List.map_map,
    List.map_map]
  exact congrArg _ (List.map_congr_left each)

/-- Scalars that are numbers if they look like it are compared in two dual ways with opposite
verdicts. -/
theorem Evaluation.mapError_compareScalars_opposite {first second : Scalar}
    (isFirst : first.isNaN = false) (isSecond : second.isNaN = false) :
    (compareScalars .greaterOrEqual first second).mapError EvaluationError.withoutComparison =
      (Verdict.opposite (compareScalars .less first second)).mapError
        EvaluationError.withoutComparison := by
  by_cases sameFamily : first.family = second.family
  · rw [Scalar.compareScalars_greaterOrEqual sameFamily isFirst isSecond]
    rfl
  · unfold compareScalars
    rw [if_neg sameFamily, if_neg sameFamily]
    rfl

theorem Environment.mapError_inequality_opposite {environment : Environment} {lhs rhs : Expression}
    (left : ∀ scalar, environment.operand lhs = .ok scalar → scalar.isNaN = false)
    (right : ∀ scalar, environment.operand rhs = .ok scalar → scalar.isNaN = false) :
    ((Expression.comparison .greaterOrEqual lhs rhs).meaning environment).mapError
        EvaluationError.withoutComparison =
      ((Expression.comparison .less lhs rhs).meaning environment).opposite.mapError
        EvaluationError.withoutComparison := by
  rw [Expression.meaning, Expression.meaning]
  cases first : environment.operand lhs with
  | error error => rfl
  | ok scalar =>
      cases second : environment.operand rhs with
      | error error => rfl
      | ok other =>
          exact Evaluation.mapError_compareScalars_opposite (left scalar first) (right other second)

namespace Expression

/-- The pushed negation of a condition means the opposite of the condition, with errors alike. -/
theorem mapError_meaning_opposite {expression : Expression} (joins : expression.JoinsSomething)
    (constants : expression.EachFloat fun number => number.isNaN = false)
    {environment : Environment} (readable : environment.Readable) :
    (expression.opposite.meaning environment).mapError EvaluationError.withoutComparison =
      (expression.meaning environment).opposite.mapError EvaluationError.withoutComparison := by
  induction expression generalizing environment with
  | constant value => rfl
  | connective kind children ih =>
      have nonempty : children ≠ [] := by
        rintro rfl
        exact joins kind (by simp [nodes, nodesAmong])
      have each : ∀ child ∈ children,
          (child.opposite.meaning environment).mapError EvaluationError.withoutComparison =
            (child.meaning environment).opposite.mapError EvaluationError.withoutComparison :=
        fun child member => ih child member (joins.part member) (constants.part member) readable
      rw [opposite, opposites_eq_map, meaning_connective, meaning_connective, List.map_map,
        if_neg (by simpa using nonempty), if_neg (by simpa using nonempty),
        Connective.neutral_dual]
      exact Verdict.mapError_firstOther_opposite each
  | negation inner ih =>
      rw [opposite, meaning]
      exact congrArg _ (Verdict.opposite_opposite _).symm
  | comparison kind lhs rhs =>
      have number : ∀ operand ∈ [lhs, rhs], ∀ scalar,
          environment.operand operand = .ok scalar → scalar.isNaN = false :=
        fun operand member scalar found => readable.isNaN_operand
          (fun number isConstant => (constants.part (by simpa [parts] using member)) number
            (by simp [isConstant, nodes])) found
      have dual := environment.mapError_inequality_opposite (number lhs (by simp))
        (number rhs (by simp))
      cases kind with
      | equal => rfl
      | less => exact dual
      | greaterOrEqual =>
          -- The duality is read backwards, since an opposite of an opposite is the verdict itself.
          have backwards := congrArg Verdict.opposite dual
          rw [← Verdict.mapError_opposite, ← Verdict.mapError_opposite,
            Verdict.opposite_opposite] at backwards
          exact backwards.symm
  | field slot path => rfl
  | literal value => rfl
  | quantifier kind slot source predicate _ ih =>
      have inPredicate : predicate ∈ (quantifier kind slot source predicate).parts := by
        simp [parts]
      have each : ∀ items, environment.elements source = .ok items → ∀ item ∈ items,
          (predicate.opposite.meaning (environment.put slot item)).mapError
              EvaluationError.withoutComparison =
            (predicate.meaning (environment.put slot item)).opposite.mapError
              EvaluationError.withoutComparison :=
        fun items found item member => ih (joins.part inPredicate) (constants.part inPredicate)
          (readable.put slot (readable.elements found item member))
      cases kind with
      | anyEvery => rfl
      | any =>
          rw [opposite, meaning, meaning]
          cases found : environment.elements source with
          | error error => rfl
          | ok items =>
              exact @Verdict.mapError_firstOther_opposite _ false _ _ _ _ (each items found)
      | every =>
          rw [opposite, meaning, meaning]
          cases found : environment.elements source with
          | error error => rfl
          | ok items =>
              exact @Verdict.mapError_firstOther_opposite _ true _ _ _ _ (each items found)

end Expression

namespace Evaluation

/-- On each document that is read, a negation in front and the negation at the leaves have the same
truth value, or the same error but for the name of a comparison. -/
theorem negation_pushed_to_leaves {octets : Bytes} {document : Json.Value}
    (read : Json.ofBytes? octets = some document) {filter : Expression}
    (joins : filter.JoinsSomething)
    (constants : filter.EachFloat fun number => number.isNaN = false)
    {depthLimit : Nat} (within : filter.depth + 1 ≤ depthLimit) :
    (verdictOn ⟨depthLimit, false⟩ document (.negation filter)).mapError
        EvaluationError.withoutComparison =
      (verdictOn ⟨depthLimit, false⟩ document filter.opposite).mapError
        EvaluationError.withoutComparison := by
  have inFront : (Expression.negation filter).depth ≤ depthLimit := by
    rw [Expression.depth]
    omega
  have inside : filter.opposite.depth ≤ depthLimit :=
    (Expression.depth_opposite_le le_rfl).trans within
  have readable : (Environment.ofDocument document).Readable :=
    Environment.readable_ofDocument (Json.readable_of_ofBytes? read)
  rw [verdictOn, verdictOn, judge_eq_meaning document rfl inFront,
    judge_eq_meaning document rfl inside,
    Expression.mapError_meaning_opposite joins constants readable]
  rfl

/-- That every element is less than three is refused for an element that is a text, and that some
element is no less than three likewise. -/
theorem negation_pushed_into_elements :
    let document := Json.Value.array [.number (.integer 1), .string "a"]
    let filter := Expression.quantifier .every 1 (.field 0 "")
      (.comparison .less (.field 1 "") (.literal (.integer 3)))
    let pushed := Expression.quantifier .any 1 (.field 0 "")
      (.comparison .greaterOrEqual (.field 1 "") (.literal (.integer 3)))
    Json.ofBytes? (Utf8.encode "[1,\"a\"]") = some document ∧ filter.JoinsSomething ∧
      (filter.EachFloat fun number => number.isNaN = false) ∧ filter.depth + 1 ≤ 4 ∧
      (verdictOn ⟨4, false⟩ document (.negation filter)).mapError
          EvaluationError.withoutComparison =
        (verdictOn ⟨4, false⟩ document pushed).mapError EvaluationError.withoutComparison := by
  intro document filter pushed
  have read : Json.ofBytes? (Utf8.encode "[1,\"a\"]") = some document := by cbv
  have joins : filter.JoinsSomething := by
    simp [filter, Expression.JoinsSomething, Expression.nodes]
  have constants : filter.EachFloat fun number => number.isNaN = false := by
    simp [filter, Expression.EachFloat, Expression.nodes]
  exact ⟨read, joins, constants, by decide,
    negation_pushed_to_leaves read joins constants (by decide)⟩

end Evaluation

end JsonSieve
