import JsonSieve.Scalar

/-!
# Filter expressions

A filter is a tree of conditions over the fields of a document.  Slot zero holds the document;
a quantifier puts the elements of an array into a slot of its own, one after the other, while
its predicate is evaluated.  Any tree can be built.  Which trees make sense is decided when
they are read or evaluated.
-/

namespace JsonSieve

/-- How the conditions of a list are joined. -/
inductive Connective
  | conjunction
  | disjunction
  deriving DecidableEq

/-- How a condition on the elements of an array is meant.  The last one can be written down but
has no meaning yet. -/
inductive Quantifier
  | any
  | every
  | anyEvery
  deriving DecidableEq

/-- A filter, or a part of one. -/
inductive Expression
  | constant (value : Bool)
  | connective (kind : Connective) (children : List Expression)
  | negation (inner : Expression)
  | comparison (kind : Comparison) (lhs rhs : Expression)
  | field (slot : Nat) (path : String)
  | literal (value : Scalar)
  | quantifier (kind : Quantifier) (slot : Nat) (source predicate : Expression)

/-- The operators: what an expression is, apart from its parts. -/
inductive Operator
  | constant (value : Bool)
  | connective (kind : Connective)
  | negation
  | comparison (kind : Comparison)
  | field
  | literal
  | quantifier (kind : Quantifier)
  deriving DecidableEq

namespace Operator

def name : Operator → String
  | .constant true => "true"
  | .constant false => "false"
  | .connective .conjunction => "and"
  | .connective .disjunction => "or"
  | .negation => "not"
  | .comparison kind => kind.name
  | .field => "field"
  | .literal => "value"
  | .quantifier .any => "anyin"
  | .quantifier .every => "everyin"
  | .quantifier .anyEvery => "anyeveryin"

def all : List Operator :=
  [.constant true, .constant false, .connective .conjunction, .connective .disjunction,
    .negation, .comparison .equal, .comparison .less, .comparison .greaterOrEqual, .field,
    .literal, .quantifier .any, .quantifier .every, .quantifier .anyEvery]

def ofName? (name : String) : Option Operator :=
  all.find? (fun operator => operator.name = name)

theorem ofName?_name (operator : Operator) : ofName? operator.name = some operator := by
  cases operator with
  | constant value => cases value <;> decide
  | connective kind => cases kind <;> decide
  | comparison kind => cases kind <;> decide
  | quantifier kind => cases kind <;> decide
  | negation => decide
  | field => decide
  | literal => decide

end Operator

/-- The slot that holds the document. -/
def rootSlot : Nat := 0

namespace Expression

def operator : Expression → Operator
  | .constant value => .constant value
  | .connective kind _ => .connective kind
  | .negation _ => .negation
  | .comparison kind _ _ => .comparison kind
  | .field _ _ => .field
  | .literal _ => .literal
  | .quantifier kind _ _ _ => .quantifier kind

mutual

def depth : Expression → Nat
  | .constant _ | .field _ _ | .literal _ => 1
  | .connective _ children => 1 + depthAmong children
  | .negation inner => 1 + inner.depth
  | .comparison _ lhs rhs => 1 + max lhs.depth rhs.depth
  | .quantifier _ _ source predicate => 1 + max source.depth predicate.depth

def depthAmong : List Expression → Nat
  | [] => 0
  | child :: children => max child.depth (depthAmong children)

end

mutual

/-- The highest slot that an expression reads or fills. -/
def highestSlot : Expression → Nat
  | .constant _ | .literal _ => rootSlot
  | .field slot _ => slot
  | .connective _ children => highestSlotAmong children
  | .negation inner => inner.highestSlot
  | .comparison _ lhs rhs => max lhs.highestSlot rhs.highestSlot
  | .quantifier _ slot source predicate => max slot (max source.highestSlot predicate.highestSlot)

def highestSlotAmong : List Expression → Nat
  | [] => rootSlot
  | child :: children => max child.highestSlot (highestSlotAmong children)

end

mutual

/-- Whether two expressions are the same up to the numerical equality of their floating point
constants. -/
def agrees : Expression → Expression → Bool
  | .constant first, .constant second => first = second
  | .connective first children, .connective second others =>
      first = second && agreeAll children others
  | .negation first, .negation second => first.agrees second
  | .comparison first lhs rhs, .comparison second otherLhs otherRhs =>
      first = second && lhs.agrees otherLhs && rhs.agrees otherRhs
  | .field first path, .field second otherPath => first = second && path = otherPath
  | .literal first, .literal second => first.agrees second
  | .quantifier first slot source predicate,
      .quantifier second otherSlot otherSource otherPredicate =>
      first = second && slot = otherSlot && source.agrees otherSource &&
        predicate.agrees otherPredicate
  | _, _ => false

def agreeAll : List Expression → List Expression → Bool
  | [], [] => true
  | first :: children, second :: others => first.agrees second && agreeAll children others
  | _, _ => false

end

end Expression

end JsonSieve
