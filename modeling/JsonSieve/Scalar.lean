import JsonSieve.Binary64.Rounding
import JsonSieve.Json.Value

/-!
# Scalars and their order

A scalar is what a filter can compare: a text, a number, a truth value or null.  Scalars of
different families are not comparable.  Within a family texts are ordered by their octets,
numbers by value and truth values with false first.  Two integers are compared exactly, and
an integer is rounded to a floating point number before it is compared with one.
-/

namespace JsonSieve

/-- A value that can be compared. -/
inductive Scalar
  | string (text : String)
  | integer (value : Int64)
  | float (value : Binary64)
  | boolean (value : Bool)
  | null
  deriving DecidableEq

namespace Scalar

/-- The kinds of scalars that messages tell apart. -/
inductive Kind
  | string
  | integer
  | float
  | boolean
  | null
  deriving DecidableEq

def Kind.name : Kind → String
  | .string => "string"
  | .integer => "integer"
  | .float => "float"
  | .boolean => "boolean"
  | .null => "null"

def kind : Scalar → Kind
  | .string _ => .string
  | .integer _ => .integer
  | .float _ => .float
  | .boolean _ => .boolean
  | .null => .null

/-- The families within which scalars are comparable. -/
inductive Family
  | text
  | number
  | truth
  | null
  deriving DecidableEq

def family : Scalar → Family
  | .string _ => .text
  | .integer _ | .float _ => .number
  | .boolean _ => .truth
  | .null => .null

/-- A JSON number as a scalar.  Integers beyond 64 bits with sign become floating point
numbers. -/
def ofNumber : Json.Number → Scalar
  | .integer value =>
      if Int64.minValue.toInt ≤ value ∧ value ≤ Int64.maxValue.toInt then
        .integer (Int64.ofInt value)
      else .float (Binary64.ofInt value)
  | .float value => .float value

/-- A JSON value as a scalar, unless it is an array or an object. -/
def ofJson? : Json.Value → Option Scalar
  | .null => some .null
  | .boolean value => some (.boolean value)
  | .number value => some (ofNumber value)
  | .string text => some (.string text)
  | .array _ | .object _ => none

/-- A scalar as a JSON value.  JSON has no number that is not finite; null stands for those. -/
def toJson : Scalar → Json.Value
  | .string text => .string text
  | .integer value => .number (.integer value.toInt)
  | .float value => if value.isFinite then .number (.float value) else .null
  | .boolean value => .boolean value
  | .null => .null

/-- The order of two scalars.  Scalars of different families have none, and neither has a
floating point value that is no number. -/
def order? : Scalar → Scalar → Option Ordering
  | .string first, .string second => some (Utf8.compareTexts first second)
  | .integer first, .integer second => some (compare first.toInt second.toInt)
  | .integer first, .float second => (Binary64.ofInt first.toInt).compare? second
  | .float first, .integer second => first.compare? (Binary64.ofInt second.toInt)
  | .float first, .float second => first.compare? second
  | .boolean first, .boolean second => some (compare first.toNat second.toNat)
  | .null, .null => some .eq
  | _, _ => none

/-- Whether two scalars are the same constant.  Integers and floating point numbers are
different constants, and floating point numbers are compared numerically. -/
def agrees : Scalar → Scalar → Bool
  | .float first, .float second => first.equals second
  | first, second => first = second

end Scalar

inductive Comparison
  | equal
  | less
  | greaterOrEqual
  deriving DecidableEq

namespace Comparison

def name : Comparison → String
  | .equal => "equals"
  | .less => "lessthan"
  | .greaterOrEqual => "greaterequal"

def holds : Comparison → Ordering → Bool
  | .equal, .eq => true
  | .less, .lt => true
  | .greaterOrEqual, .eq => true
  | .greaterOrEqual, .gt => true
  | _, _ => false

/-- Whether a comparison holds of two comparable scalars.  Nothing holds of a value that is no
number. -/
def holdsOf (comparison : Comparison) (first second : Scalar) : Bool :=
  match first.order? second with
  | some order => comparison.holds order
  | none => false

end Comparison

end JsonSieve
