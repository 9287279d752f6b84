import JsonSieve.Proofs.Evaluation.Verdict
import JsonSieve.Proofs.Expression.Tree

/-!
# What an evaluation leaves behind

A quantifier drops the binding of an element as soon as its predicate is done.  So an evaluation
ends with the bindings that it began with, whether it reaches a verdict or fails, and whenever its
time runs out.  Under fixed limits the bindings are all there is, and the verdict of a connective or
a quantifier is that of its parts, joined.  Filters that are evaluated one after the other on the
same bindings have the verdicts that each of them has on its own.
-/

namespace JsonSieve

namespace Keeper

variable {State : Type} {keeper : Keeper State} {depthLimit depth : Nat}

@[simp]
theorem bindings_push (keeper : Keeper State) (slot : Nat) (element : Json.Value)
    (state : State) :
    keeper.bindings (keeper.push slot element state) =
      (slot, element) :: keeper.bindings state :=
  keeper.bindings_rebind state _

@[simp]
theorem bindings_pop (keeper : Keeper State) (state : State) :
    keeper.bindings (keeper.pop state) = (keeper.bindings state).tail :=
  keeper.bindings_rebind state _

/-- A step ends with the bindings that it began with. -/
def Restores (keeper : Keeper State) (step : Evaluation State) : Prop :=
  ∀ state, keeper.bindings (step state).2 = keeper.bindings state

theorem restores_overElements {slot : Nat} {decisive : Bool} {predicate : Evaluation State}
    (restores : keeper.Restores predicate) (items : List Json.Value) :
    keeper.Restores (keeper.overElements slot decisive predicate items) := by
  induction items with
  | nil => exact fun state => rfl
  | cons item items ih =>
      intro state
      have asked := keeper.bindings_isLate state
      rw [overElements]
      generalize keeper.isLate state = answer at asked
      obtain ⟨late, before⟩ := answer
      cases late with
      | true => exact asked
      | false =>
          have pushed := restores (keeper.push slot item before)
          dsimp only
          generalize predicate (keeper.push slot item before) = result at pushed
          obtain ⟨verdict, after⟩ := result
          have popped : keeper.bindings (keeper.pop after) = keeper.bindings state := by
            rw [bindings_pop, pushed, bindings_push]
            exact asked
          cases verdict with
          | error error => exact popped
          | ok value =>
              dsimp only
              split
              · exact popped
              · exact (ih (keeper.pop after)).trans popped

theorem restores_overSource {slot : Nat} {source : Expression} {decisive : Bool}
    {predicate : Evaluation State} (restores : keeper.Restores predicate) :
    keeper.Restores (keeper.overSource slot source decisive predicate) := by
  intro state
  rw [overSource]
  cases Evaluation.elements (keeper.bindings state) source with
  | error error => rfl
  | ok items => exact restores_overElements restores items state

theorem restores_evaluateUntil {decisive : Bool} {children : List Expression}
    (each : ∀ child ∈ children, keeper.Restores (keeper.evaluate depthLimit depth child)) :
    keeper.Restores (keeper.evaluateUntil depthLimit decisive depth children) := by
  induction children with
  | nil =>
      intro state
      rw [evaluateUntil]
  | cons child children ih =>
      intro state
      have first := each child (by simp) state
      rw [evaluateUntil]
      generalize keeper.evaluate depthLimit depth child state = result at first
      obtain ⟨verdict, after⟩ := result
      cases verdict with
      | error error => exact first
      | ok value =>
          dsimp only
          split
          · exact first
          · exact (ih (fun other member => each other (by simp [member])) after).trans first

theorem evaluate_of_tooDeep (tooDeep : depthLimit < depth) (expression : Expression)
    (state : State) :
    keeper.evaluate depthLimit depth expression state = (.error (.tooDeep depthLimit), state) := by
  rw [evaluate.eq_def]
  exact if_pos tooDeep

/-- Too many levels down an evaluation leaves its state as it is. -/
theorem restores_of_within {expression : Expression}
    (within : ¬depthLimit < depth → keeper.Restores (keeper.evaluate depthLimit depth expression)) :
    keeper.Restores (keeper.evaluate depthLimit depth expression) := by
  by_cases tooDeep : depthLimit < depth
  · intro state
    rw [evaluate_of_tooDeep tooDeep]
  · exact within tooDeep

/-- An evaluation ends with the bindings that it began with, whenever its time runs out. -/
theorem restores_evaluate (keeper : Keeper State) (depthLimit depth : Nat)
    (expression : Expression) : keeper.Restores (keeper.evaluate depthLimit depth expression) := by
  induction expression generalizing depth with
  | connective kind children ih =>
      refine restores_of_within fun within state => ?_
      have each : ∀ child ∈ children,
          keeper.Restores (keeper.evaluate depthLimit (depth + 1) child) :=
        fun child member => ih child member (depth + 1)
      cases kind with
      | conjunction =>
          cases children with
          | nil => rw [evaluate, if_neg within]
          | cons child children =>
              rw [evaluate, if_neg within]
              exact restores_evaluateUntil each state
      | disjunction =>
          rw [evaluate, if_neg within]
          exact restores_evaluateUntil each state
  | negation inner ih =>
      refine restores_of_within fun within state => ?_
      have restored := ih (depth + 1) state
      rw [evaluate, if_neg within]
      generalize keeper.evaluate depthLimit (depth + 1) inner state = result at restored
      obtain ⟨verdict, after⟩ := result
      cases verdict <;> exact restored
  | quantifier kind slot source predicate _ ih =>
      refine restores_of_within fun within state => ?_
      cases kind with
      | any =>
          rw [evaluate, if_neg within]
          exact restores_overSource (ih (depth + 1)) state
      | every =>
          rw [evaluate, if_neg within]
          exact restores_overSource (ih (depth + 1)) state
      | anyEvery => rw [evaluate, if_neg within]
  | _ =>
      intro state
      rw [evaluate]
      split <;> rfl

theorem restores_judge (keeper : Keeper State) (depthLimit : Nat) (filter : Expression) :
    keeper.Restores (keeper.judge depthLimit filter) := by
  intro state
  cases filter with
  | constant value => rfl
  | _ => exact restores_evaluate keeper depthLimit 1 _ state

end Keeper

namespace Evaluation

variable {limits : Limits} {depth : Nat}

theorem evaluate_of_tooDeep (tooDeep : limits.depthLimit < depth) (expression : Expression)
    (bindings : Bindings) :
    evaluate limits depth expression bindings = (.error (.tooDeep limits.depthLimit), bindings) :=
  Keeper.evaluate_of_tooDeep tooDeep expression bindings

theorem evaluate_bindings (limits : Limits) (depth : Nat) (expression : Expression)
    (bindings : Bindings) : (evaluate limits depth expression bindings).2 = bindings :=
  Keeper.restores_evaluate (stack limits.expired) limits.depthLimit depth expression bindings

section Within

variable (within : ¬limits.depthLimit < depth) (bindings : Bindings)

include within

theorem evaluate_constant (value : Bool) :
    evaluate limits depth (.constant value) bindings = (.ok value, bindings) :=
  if_neg within

theorem evaluate_comparison (kind : Comparison) (lhs rhs : Expression) :
    evaluate limits depth (.comparison kind lhs rhs) bindings =
      (compareOperands bindings kind lhs rhs, bindings) :=
  if_neg within

theorem evaluate_field (slot : Nat) (path : String) :
    evaluate limits depth (.field slot path) bindings =
      (.error (.unsupported .fieldAsCondition), bindings) :=
  if_neg within

theorem evaluate_literal (value : Scalar) :
    evaluate limits depth (.literal value) bindings =
      (.error (.unsupported .literalAsCondition), bindings) :=
  if_neg within

theorem evaluate_negation (inner : Expression) :
    evaluate limits depth (.negation inner) bindings =
      ((evaluate limits (depth + 1) inner bindings).1.map (fun verdict => !verdict), bindings) := by
  have restored := evaluate_bindings limits (depth + 1) inner bindings
  refine (if_neg within).trans ?_
  rw [← evaluate]
  generalize evaluate limits (depth + 1) inner bindings = result at restored
  obtain ⟨verdict, after⟩ := result
  obtain rfl : after = bindings := restored
  cases verdict <;> rfl

end Within

/-- Since no bindings change, conditions in a row are evaluated to the first verdict that
decides. -/
theorem evaluateUntil_eq_firstOther (limits : Limits) (decisive : Bool) (depth : Nat)
    (children : List Expression) (bindings : Bindings) :
    (stack limits.expired).evaluateUntil limits.depthLimit decisive depth children bindings =
      (Verdict.firstOther (!decisive)
        (children.map (fun child => (evaluate limits depth child bindings).1)), bindings) := by
  induction children with
  | nil => simp [Keeper.evaluateUntil]
  | cons child children ih =>
      have restored := evaluate_bindings limits depth child bindings
      rw [Keeper.evaluateUntil, List.map_cons, ← evaluate]
      generalize evaluate limits depth child bindings = result at restored
      obtain ⟨verdict, after⟩ := result
      obtain rfl : after = bindings := restored
      cases verdict with
      | error error => rfl
      | ok value =>
          simp only [ih, Verdict.firstOther_cons_ok]
          cases value <;> cases decisive <;> rfl

/-- In time, elements in a row are gone through to the first verdict that decides. -/
theorem overElements_eq_firstOther {decisive : Bool} {slot : Nat}
    {predicate : Evaluation Bindings} {bindings : Bindings} (items : List Json.Value)
    (each : ∀ item, (predicate ((slot, item) :: bindings)).2 = (slot, item) :: bindings) :
    (stack false).overElements slot decisive predicate items bindings =
      (Verdict.firstOther (!decisive)
        (items.map (fun item => (predicate ((slot, item) :: bindings)).1)), bindings) := by
  induction items with
  | nil => simp [Keeper.overElements]
  | cons item items ih =>
      have restored := each item
      have inTime : (stack false).isLate bindings = (false, bindings) := rfl
      have pushed : (stack false).push slot item bindings = (slot, item) :: bindings := rfl
      simp only [Keeper.overElements, inTime, pushed, List.map_cons]
      generalize predicate ((slot, item) :: bindings) = result at restored
      obtain ⟨verdict, after⟩ := result
      obtain rfl : after = (slot, item) :: bindings := restored
      cases verdict with
      | error error => rfl
      | ok value =>
          have popped : (stack false).pop ((slot, item) :: bindings) = bindings := rfl
          simp only [popped, ih, Verdict.firstOther_cons_ok]
          cases value <;> cases decisive <;> rfl

/-- A connective joins the verdicts of its children; without children it is false. -/
theorem evaluate_connective (within : ¬limits.depthLimit < depth) (kind : Connective)
    (children : List Expression) (bindings : Bindings) :
    evaluate limits depth (.connective kind children) bindings =
      (if children.isEmpty then .ok false
        else Verdict.firstOther kind.neutral
          (children.map (fun child => (evaluate limits (depth + 1) child bindings).1)),
        bindings) := by
  cases kind with
  | conjunction =>
      cases children with
      | nil => exact if_neg within
      | cons child children => exact (if_neg within).trans (evaluateUntil_eq_firstOther ..)
  | disjunction =>
      refine (if_neg within).trans ((evaluateUntil_eq_firstOther ..).trans ?_)
      cases children <;> rfl

/-- A quantifier joins the verdicts on the elements of its source, unless there are elements and
the time is over. -/
theorem evaluate_quantifier (within : ¬limits.depthLimit < depth) {kind : Quantifier}
    {neutral : Bool} (meaningful : kind.neutral? = some neutral) (slot : Nat)
    (source predicate : Expression) (bindings : Bindings) :
    evaluate limits depth (.quantifier kind slot source predicate) bindings =
      (elements bindings source >>= fun items =>
          if limits.expired && !items.isEmpty then .error .outOfTime
          else Verdict.firstOther neutral (items.map (fun item =>
            (evaluate limits (depth + 1) predicate ((slot, item) :: bindings)).1)),
        bindings) := by
  have ranged : ∀ decisive, (stack limits.expired).overSource slot source decisive
      (evaluate limits (depth + 1) predicate) bindings =
      (elements bindings source >>= fun items =>
          if limits.expired && !items.isEmpty then .error .outOfTime
          else Verdict.firstOther (!decisive) (items.map (fun item =>
            (evaluate limits (depth + 1) predicate ((slot, item) :: bindings)).1)),
        bindings) := by
    intro decisive
    have same : (stack limits.expired).bindings bindings = bindings := rfl
    rw [Keeper.overSource, same]
    cases elements bindings source with
    | error error => rfl
    | ok items =>
        cases late : limits.expired with
        | true => cases items <;> rfl
        | false =>
            exact overElements_eq_firstOther items
              (fun item => evaluate_bindings limits (depth + 1) predicate _)
  cases kind with
  | any =>
      cases meaningful
      exact (if_neg within).trans (ranged true)
  | every =>
      cases meaningful
      exact (if_neg within).trans (ranged false)
  | anyEvery => cases meaningful

theorem evaluate_meaningless (within : ¬limits.depthLimit < depth) {kind : Quantifier}
    (meaningless : kind.neutral? = none) (slot : Nat) (source predicate : Expression)
    (bindings : Bindings) :
    evaluate limits depth (.quantifier kind slot source predicate) bindings =
      (.error (.unsupported .anyEveryQuantifier), bindings) := by
  cases kind with
  | anyEvery => exact if_neg within
  | _ => cases meaningless

theorem judge_bindings (limits : Limits) (filter : Expression) (bindings : Bindings) :
    (judge limits filter bindings).2 = bindings :=
  Keeper.restores_judge (stack limits.expired) limits.depthLimit filter bindings

/-- The verdict of a filter that is evaluated on a document by itself. -/
def verdictOn (limits : Limits) (document : Json.Value) (filter : Expression) : Verdict :=
  (judge limits filter (initial document)).1

theorem judge_initial (limits : Limits) (filter : Expression) (document : Json.Value) :
    judge limits filter (initial document) =
      (verdictOn limits document filter, initial document) :=
  Prod.ext rfl (judge_bindings limits filter (initial document))

theorem operand_of_resolve {document value : Json.Value} {path : String} {scalar : Scalar}
    (resolved : Path.resolve document path = .ok value)
    (isScalar : Scalar.ofJson? value = some scalar) :
    operand (initial document) (.field rootSlot path) = .ok scalar := by
  have found : fieldValue (initial document) rootSlot path = .ok value := by
    change (Path.resolve document path).mapError EvaluationError.path = _
    rw [resolved]
    rfl
  rw [operand, found]
  simp only [bind, Except.bind, isScalar]

theorem verdictOn_comparison {document : Json.Value} {lhs rhs : Expression} {first second : Scalar}
    (isFirst : operand (initial document) lhs = .ok first)
    (isSecond : operand (initial document) rhs = .ok second) (limits : Limits)
    (comparison : Comparison) :
    verdictOn limits document (.comparison comparison lhs rhs) =
      if limits.depthLimit < 1 then .error (.tooDeep limits.depthLimit)
      else compareScalars comparison first second := by
  change (evaluate limits 1 (.comparison comparison lhs rhs) _).1 = _
  split
  · next tooDeep => rw [evaluate_of_tooDeep tooDeep]
  · next within =>
      rw [evaluate_comparison within, compareOperands, isFirst, isSecond]
      rfl

end Evaluation

end JsonSieve
