import JsonSieve.Evaluation.Error
import JsonSieve.Expression

/-!
# Evaluation of filters

An evaluation keeps a stack of bindings, the newest first, with the document bound to the root
slot at its bottom.  A quantifier pushes a binding for one element at a time and drops it
again as soon as its predicate is done, whether that succeeded or not.  Conditions are
evaluated from left to right and only as far as needed; the first error ends the evaluation.

Before each element a quantifier asks whether the time is over.  What answers is left open: it can
be a fixed answer, or a clock that is read.
-/

namespace JsonSieve

/-- The bounds on an evaluation: how many levels it may descend, and whether its time is
over. -/
structure Limits where
  depthLimit : Nat
  expired : Bool
  deriving DecidableEq

/-- The values bound to slots, the newest binding first. -/
abbrev Bindings := List (Nat × Json.Value)

/-- A step of an evaluation: from the state before it to its verdict and the state after it. -/
abbrev Evaluation (State : Type) := State → Except EvaluationError Bool × State

namespace Evaluation

/-- The value in a slot, which is the one bound last. -/
def lookup (bindings : Bindings) (slot : Nat) : Except EvaluationError Json.Value :=
  match bindings.find? (fun binding => binding.1 = slot) with
  | some binding => .ok binding.2
  | none => .error (.unboundSlot slot)

def fieldValue (bindings : Bindings) (slot : Nat) (path : String) :
    Except EvaluationError Json.Value := do
  let value ← lookup bindings slot
  (Path.resolve value path).mapError .path

/-- The scalar on one side of a comparison. -/
def operand (bindings : Bindings) : Expression → Except EvaluationError Scalar
  | .field slot path => do
      let value ← fieldValue bindings slot path
      match Scalar.ofJson? value with
      | some scalar => .ok scalar
      | none => .error (.notScalar value.kind)
  | .literal value => .ok value
  | _ => .error (.unsupported .conditionAsOperand)

/-- Compares two scalars, which have to be of one family. -/
def compareScalars (comparison : Comparison) (first second : Scalar) :
    Except EvaluationError Bool :=
  if first.family = second.family then .ok (comparison.holdsOf first second)
  else .error (.mismatch comparison first.kind second.kind)

def compareOperands (bindings : Bindings) (comparison : Comparison) (lhs rhs : Expression) :
    Except EvaluationError Bool := do
  let first ← operand bindings lhs
  let second ← operand bindings rhs
  compareScalars comparison first second

def elements (bindings : Bindings) : Expression → Except EvaluationError (List Json.Value)
  | .field slot path => do
      match ← fieldValue bindings slot path with
      | .array items => .ok items
      | value => .error (.notArray value.kind)
  | .literal value => .error (.constantSource value.kind)
  | _ => .error (.unsupported .conditionAsSource)

end Evaluation

/-- How a state holds the bindings of an evaluation and tells whether its time is over. -/
structure Keeper (State : Type) where
  bindings : State → Bindings
  rebind : State → Bindings → State
  isLate : State → Bool × State
  bindings_rebind : ∀ state new, bindings (rebind state new) = new
  bindings_isLate : ∀ state, bindings (isLate state).2 = bindings state

namespace Keeper

open Evaluation

variable {State : Type}

def push (keeper : Keeper State) (slot : Nat) (element : Json.Value) (state : State) : State :=
  keeper.rebind state ((slot, element) :: keeper.bindings state)

def pop (keeper : Keeper State) (state : State) : State :=
  keeper.rebind state (keeper.bindings state).tail

/-- Evaluates a predicate for each element in turn, bound to a slot, until one gives the
decisive verdict.  Without such an element the verdict is the other one. -/
def overElements (keeper : Keeper State) (slot : Nat) (decisive : Bool)
    (predicate : Evaluation State) : List Json.Value → Evaluation State
  | [], state => (.ok (!decisive), state)
  | element :: others, state =>
      match keeper.isLate state with
      | (true, after) => (.error .outOfTime, after)
      | (false, before) =>
          match predicate (keeper.push slot element before) with
          | (.error error, after) => (.error error, keeper.pop after)
          | (.ok verdict, after) =>
              if verdict = decisive then (.ok decisive, keeper.pop after)
              else overElements keeper slot decisive predicate others (keeper.pop after)

/-- Evaluates a quantifier: finds the elements of its source and goes through them. -/
def overSource (keeper : Keeper State) (slot : Nat) (source : Expression) (decisive : Bool)
    (predicate : Evaluation State) : Evaluation State := fun state =>
  match elements (keeper.bindings state) source with
  | .error error => (.error error, state)
  | .ok items => keeper.overElements slot decisive predicate items state

mutual

/-- Evaluates an expression as a condition that stands so many levels deep. -/
def evaluate (keeper : Keeper State) (depthLimit : Nat) :
    (depth : Nat) → Expression → Evaluation State
  | depth, expression, state =>
      if depthLimit < depth then (.error (.tooDeep depthLimit), state)
      else
        match expression with
        | .constant value => (.ok value, state)
        | .connective .conjunction [] => (.ok false, state)
        | .connective .conjunction (child :: children) =>
            evaluateUntil keeper depthLimit false (depth + 1) (child :: children) state
        | .connective .disjunction children =>
            evaluateUntil keeper depthLimit true (depth + 1) children state
        | .negation inner =>
            match evaluate keeper depthLimit (depth + 1) inner state with
            | (.ok verdict, after) => (.ok (!verdict), after)
            | (.error error, after) => (.error error, after)
        | .comparison kind lhs rhs => (compareOperands (keeper.bindings state) kind lhs rhs, state)
        | .field _ _ => (.error (.unsupported .fieldAsCondition), state)
        | .literal _ => (.error (.unsupported .literalAsCondition), state)
        | .quantifier .any slot source predicate =>
            keeper.overSource slot source true (evaluate keeper depthLimit (depth + 1) predicate)
              state
        | .quantifier .every slot source predicate =>
            keeper.overSource slot source false (evaluate keeper depthLimit (depth + 1) predicate)
              state
        | .quantifier .anyEvery _ _ _ => (.error (.unsupported .anyEveryQuantifier), state)

/-- Evaluates conditions in order until one gives the decisive verdict.  Without such a
condition the verdict is the other one. -/
def evaluateUntil (keeper : Keeper State) (depthLimit : Nat) (decisive : Bool) :
    (depth : Nat) → List Expression → Evaluation State
  | _, [], state => (.ok (!decisive), state)
  | depth, child :: children, state =>
      match evaluate keeper depthLimit depth child state with
      | (.error error, after) => (.error error, after)
      | (.ok verdict, after) =>
          if verdict = decisive then (.ok decisive, after)
          else evaluateUntil keeper depthLimit decisive depth children after

end

/-- Evaluates a whole filter.  A constant has its verdict under every limit. -/
def judge (keeper : Keeper State) (depthLimit : Nat) : Expression → Evaluation State
  | .constant value, state => (.ok value, state)
  | expression, state => keeper.evaluate depthLimit 1 expression state

end Keeper

namespace Evaluation

/-- The bindings alone, while the time is over or is not. -/
def stack (expired : Bool) : Keeper Bindings where
  bindings := id
  rebind _ new := new
  isLate bindings := (expired, bindings)
  bindings_rebind _ _ := rfl
  bindings_isLate _ := rfl

def evaluate (limits : Limits) : (depth : Nat) → Expression → Evaluation Bindings :=
  (stack limits.expired).evaluate limits.depthLimit

def judge (limits : Limits) : Expression → Evaluation Bindings :=
  (stack limits.expired).judge limits.depthLimit

/-- The bindings with which the evaluation of filters on a document begins. -/
def initial (document : Json.Value) : Bindings :=
  [(rootSlot, document)]

end Evaluation

end JsonSieve
