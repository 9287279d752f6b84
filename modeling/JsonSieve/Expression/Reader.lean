import JsonSieve.Expression
import JsonSieve.Expression.Error
import JsonSieve.Json.Reader
import JsonSieve.Json.Text

/-!
# Reading filters

A filter is read from a JSON array.  The number of arguments is checked first, then the slot,
and the other arguments from left to right; the first offence is reported.  Filters nest at
most 64 levels deep, and since every quantifier adds a level, no filter needs a slot above 64.
-/

namespace JsonSieve

def Operator.arity : Operator → Arity
  | .constant _ => .exactly 0
  | .connective _ => .any
  | .negation => .exactly 1
  | .comparison _ => .exactly 2
  | .field => .atLeastOne
  | .literal => .exactly 1
  | .quantifier _ => .exactly 3

namespace Expression

/-- How many levels a written filter may have. -/
def depthLimit : Nat := 64

/-- The highest slot that a written filter may name. -/
def slotLimit : Nat := depthLimit

/-- The slot named by an argument of an operator. -/
def readSlot (operator : Operator) (argument : Json.Value) : Except FilterError Nat :=
  match argument with
  | .number (.integer value) =>
      if 0 ≤ value ∧ value ≤ slotLimit then .ok value.toNat
      else .error (.invalidArgument operator.name (.slot argument.text))
  | _ => .error (.invalidArgument operator.name (.slot argument.text))

/-- The path that segments spell one after the other. -/
def readPath : List Json.Value → Except FilterError String
  | [] => .ok ""
  | .string segment :: segments => (readPath segments).map (segment ++ ·)
  | segment :: _ =>
      .error (.invalidArgument Operator.field.name (.pathSegment segment.text))

/-- A field from its arguments: a slot, unless it is the document's, and then the segments of a
path. -/
def readField : List Json.Value → Except FilterError Expression
  | .number slot :: segments => do
      let slot ← readSlot .field (.number slot)
      let path ← readPath segments
      return .field slot path
  | segments => do
      let path ← readPath segments
      return .field rootSlot path

/-- The slot that a quantifier fills, which is not the document's. -/
def readOwnSlot (kind : Quantifier) (argument : Json.Value) : Except FilterError Nat := do
  let operator := Operator.quantifier kind
  let slot ← readSlot operator argument
  if slot = rootSlot then .error (.invalidArgument operator.name .reservedSlot)
  else return slot

/-- An operator applied to its arguments, given how arguments that are expressions are
read. -/
def ofArguments (child : Json.Value → Except FilterError Expression) :
    Operator → List Json.Value → Except FilterError Expression
  | .constant value, [] => return .constant value
  | .connective kind, arguments => do
      let children ← arguments.mapM child
      return .connective kind children
  | .negation, [argument] => do
      let inner ← child argument
      return .negation inner
  | .comparison kind, [first, second] => do
      let lhs ← child first
      let rhs ← child second
      return .comparison kind lhs rhs
  | .field, argument :: arguments => readField (argument :: arguments)
  | .literal, [argument] =>
      match Scalar.ofJson? argument with
      | some value => return .literal value
      | none => .error (.invalidArgument Operator.literal.name (.scalar argument.text))
  | .quantifier kind, [first, second, third] => do
      let slot ← readOwnSlot kind first
      let source ← child second
      let predicate ← child third
      return .quantifier kind slot source predicate
  | operator, arguments =>
      .error (.wrongArity operator.name operator.arity arguments.length)

/-- The expression that a JSON value stands for, with at most so many levels. -/
def ofJson : (levels : Nat) → Json.Value → Except FilterError Expression
  | 0, _ => .error (.tooDeep depthLimit)
  | levels + 1, .array (.string name :: arguments) =>
      match Operator.ofName? name with
      | some operator => ofArguments (ofJson levels) operator arguments
      | none => .error (.unknownOperator name)
  | _ + 1, value => .error (.notAnExpression value.text)

def ofValue (value : Json.Value) : Except FilterError Expression :=
  ofJson depthLimit value

/-- Reads a written filter.  Objects have no place in filters; messages show them settled. -/
def parse (octets : Bytes) : Except FilterError Expression :=
  match Json.ofBytes? octets with
  | some value => ofValue value.settled
  | none => .error .malformedJson

end Expression

end JsonSieve
