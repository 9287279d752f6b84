import JsonSieve.Proofs.Expression.Tree

/-!
# Scopes of slots

A quantifier fills its slot for its predicate, and not for its source.  So the slots that are
filled at a place in a filter can be read off the filter: they are the document's slot and those of
the quantifiers in whose predicates the place lies.  This file says when all fields of a filter
start at such slots and when all parts of a filter stand where they have a meaning.

It also rewrites the slots of a filter.  What becomes of a slot may depend on the quantifiers
around it, since an inner quantifier can fill the slot of an outer one again.
-/

namespace JsonSieve

namespace Expression

/-- Every field starts at a slot of the scope or at one that a quantifier around it fills.  A scope
lists the slot filled last first. -/
inductive WellScoped : (scope : List Nat) → Expression → Prop
  | constant {scope : List Nat} (value : Bool) : WellScoped scope (.constant value)
  | connective {scope : List Nat} (kind : Connective) {children : List Expression}
      (each : ∀ child ∈ children, WellScoped scope child) :
      WellScoped scope (.connective kind children)
  | negation {scope : List Nat} {inner : Expression} (inside : WellScoped scope inner) :
      WellScoped scope (.negation inner)
  | comparison {scope : List Nat} (kind : Comparison) {lhs rhs : Expression}
      (left : WellScoped scope lhs) (right : WellScoped scope rhs) :
      WellScoped scope (.comparison kind lhs rhs)
  | field {scope : List Nat} {slot : Nat} (path : String) (filled : slot ∈ scope) :
      WellScoped scope (.field slot path)
  | literal {scope : List Nat} (value : Scalar) : WellScoped scope (.literal value)
  | quantifier {scope : List Nat} (kind : Quantifier) (slot : Nat)
      {source predicate : Expression} (outside : WellScoped scope source)
      (inside : WellScoped (slot :: scope) predicate) :
      WellScoped scope (.quantifier kind slot source predicate)

/-- What can be compared and what a quantifier can range over: a field or a constant. -/
inductive IsTerm : Expression → Prop
  | field (slot : Nat) (path : String) : IsTerm (.field slot path)
  | literal (value : Scalar) : IsTerm (.literal value)

/-- Conditions stand where conditions belong, and terms on both sides of comparisons and as sources.
A quantifier without a meaning has no place. -/
inductive WellSorted : Expression → Prop
  | constant (value : Bool) : WellSorted (.constant value)
  | connective (kind : Connective) {children : List Expression}
      (each : ∀ child ∈ children, WellSorted child) : WellSorted (.connective kind children)
  | negation {inner : Expression} (inside : WellSorted inner) : WellSorted (.negation inner)
  | comparison (kind : Comparison) {lhs rhs : Expression} (left : lhs.IsTerm)
      (right : rhs.IsTerm) : WellSorted (.comparison kind lhs rhs)
  | quantifier {kind : Quantifier} (meaningful : kind ≠ .anyEvery) (slot : Nat)
      {source predicate : Expression} (outside : source.IsTerm) (inside : WellSorted predicate) :
      WellSorted (.quantifier kind slot source predicate)

/-- A way to rewrite slots.  The scope lists the slots that the quantifiers around a place fill, the
innermost first. -/
structure Relabelling where
  /-- The slot and the path of a field. -/
  field : (scope : List Nat) → (slot : Nat) → (path : String) → Nat × String
  /-- The slot that a quantifier fills. -/
  slot : (scope : List Nat) → (slot : Nat) → Nat

mutual

def relabel (labels : Relabelling) (scope : List Nat) : Expression → Expression
  | .constant value => .constant value
  | .connective kind children => .connective kind (relabelAll labels scope children)
  | .negation inner => .negation (inner.relabel labels scope)
  | .comparison kind lhs rhs =>
      .comparison kind (lhs.relabel labels scope) (rhs.relabel labels scope)
  | .field slot path =>
      .field (labels.field scope slot path).1 (labels.field scope slot path).2
  | .literal value => .literal value
  | .quantifier kind slot source predicate =>
      .quantifier kind (labels.slot scope slot) (source.relabel labels scope)
        (predicate.relabel labels (slot :: scope))

def relabelAll (labels : Relabelling) (scope : List Nat) : List Expression → List Expression
  | [] => []
  | child :: children => child.relabel labels scope :: relabelAll labels scope children

end

theorem relabelAll_eq_map (labels : Relabelling) (scope : List Nat)
    (children : List Expression) :
    relabelAll labels scope children = children.map (relabel labels scope) := by
  induction children with
  | nil => rfl
  | cons child children ih => rw [relabelAll, ih, List.map_cons]

def Relabelling.blank : Relabelling where
  field _ _ path := (rootSlot, path)
  slot _ _ := rootSlot

/-- Expressions that differ in nothing but slots. -/
def SameButSlots (first second : Expression) : Prop :=
  first.relabel .blank [] = second.relabel .blank []

theorem sameButSlots_relabel {labels : Relabelling}
    (keepsPaths : ∀ scope slot path, (labels.field scope slot path).2 = path)
    (scope : List Nat) (expression : Expression) :
    SameButSlots (expression.relabel labels scope) expression := by
  -- Blank slots do not depend on the scope, but the scope of the induction hypothesis does.
  suffices blank : ∀ around others,
      (expression.relabel labels scope).relabel .blank others =
        expression.relabel .blank around from blank [] []
  induction expression generalizing scope with
  | constant value => exact fun _ _ => rfl
  | connective kind children ih =>
      intro around others
      simp only [relabel, relabelAll_eq_map, List.map_map]
      exact congrArg _ (List.map_congr_left fun child member => ih child member scope _ _)
  | negation inner ih =>
      intro around others
      rw [relabel, relabel, relabel, ih]
  | comparison kind lhs rhs lhsIH rhsIH =>
      intro around others
      rw [relabel, relabel, relabel, lhsIH, rhsIH]
  | field slot path =>
      intro around others
      simp only [relabel, Relabelling.blank, keepsPaths]
  | literal value => exact fun _ _ => rfl
  | quantifier kind slot source predicate sourceIH predicateIH =>
      intro around others
      rw [relabel, relabel, relabel, sourceIH, predicateIH]
      rfl

end Expression

end JsonSieve
