/-!
# Errors in written filters

What can be wrong with a written filter, and the messages that say so.
-/

namespace JsonSieve

/-- How many arguments an operator takes. -/
inductive Arity
  | exactly (count : Nat)
  | atLeastOne
  | any
  deriving DecidableEq

def Arity.description : Arity → String
  | .exactly 0 => "no"
  | .exactly count => "exactly " ++ toString count
  | .atLeastOne => "at least 1"
  | .any => "any number of"

/-- What can be wrong with an argument.  The offending value is kept as text. -/
inductive ArgumentError
  | slot (found : String)
  | reservedSlot
  | pathSegment (found : String)
  | scalar (found : String)
  deriving DecidableEq

def ArgumentError.reason : ArgumentError → String
  | .slot found => "expected a slot id, got " ++ found
  | .reservedSlot => "slot 0 is reserved for the document root"
  | .pathSegment found => "expected a path segment, got " ++ found
  | .scalar found => "expected a scalar, got " ++ found

/-- What can be wrong with a written filter. -/
inductive FilterError
  | malformedJson
  | notAnExpression (found : String)
  | unknownOperator (name : String)
  | wrongArity (operator : String) (expected : Arity) (found : Nat)
  | invalidArgument (operator : String) (error : ArgumentError)
  | tooDeep (limit : Nat)
  deriving DecidableEq

def FilterError.message : FilterError → String
  | .malformedJson => "Invalid filter JSON"
  | .notAnExpression found => "Expected an expression array, got: " ++ found
  | .unknownOperator name => "Unknown operator: " ++ name
  | .wrongArity operator expected found =>
      "Operator `" ++ operator ++ "` takes " ++ expected.description ++ " argument(s), got " ++
        toString found
  | .invalidArgument operator error =>
      "Invalid argument to `" ++ operator ++ "`: " ++ error.reason
  | .tooDeep limit => "Filter nests deeper than " ++ toString limit ++ " levels"

end JsonSieve
