import JsonSieve.Expression
import JsonSieve.Json.Text

/-!
# Filters as JSON

A filter is written as a JSON array: the name of its operator, followed by its arguments.  The
slot of a field is left out if it is the document's and a path follows.
-/

namespace JsonSieve

def Json.Value.ofSlot (slot : Nat) : Json.Value :=
  .number (.integer slot)

namespace Expression

def fieldArguments (slot : Nat) (path : String) : List Json.Value :=
  (if slot ≠ rootSlot ∨ path.isEmpty then [.ofSlot slot] else []) ++
    (if path.isEmpty then [] else [.string path])

mutual

/-- An expression as JSON. -/
def toJson : Expression → Json.Value
  | .constant value => .array [.string (Operator.constant value).name]
  | .connective kind children =>
      .array (.string (Operator.connective kind).name :: toJsonAll children)
  | .negation inner => .array [.string Operator.negation.name, inner.toJson]
  | .comparison kind lhs rhs =>
      .array [.string (Operator.comparison kind).name, lhs.toJson, rhs.toJson]
  | .field slot path => .array (.string Operator.field.name :: fieldArguments slot path)
  | .literal value => .array [.string Operator.literal.name, value.toJson]
  | .quantifier kind slot source predicate =>
      .array [.string (Operator.quantifier kind).name, .ofSlot slot, source.toJson,
        predicate.toJson]

def toJsonAll : List Expression → List Json.Value
  | [] => []
  | child :: children => child.toJson :: toJsonAll children

end

def text (expression : Expression) : String :=
  expression.toJson.text

end Expression

end JsonSieve
