import JsonSieve.Expression

/-!
# Filters as trees

An expression is built from its immediate parts, and the children of a connective stand in a
list.  This file gives the induction over such trees that assumes the statement for every
child in the list, lists the nodes of a tree, and expresses the measures of a tree by those of
its parts.
-/

namespace JsonSieve

namespace Expression

/-- Induction over expressions.  The statement may be assumed of every immediate part, in the
case of a connective of every member of the list of its children. -/
@[elab_as_elim, induction_eliminator]
theorem induction {motive : Expression → Prop}
    (constant : ∀ value, motive (.constant value))
    (connective : ∀ kind children, (∀ child ∈ children, motive child) →
      motive (.connective kind children))
    (negation : ∀ inner, motive inner → motive (.negation inner))
    (comparison : ∀ kind lhs rhs, motive lhs → motive rhs → motive (.comparison kind lhs rhs))
    (field : ∀ slot path, motive (.field slot path))
    (literal : ∀ value, motive (.literal value))
    (quantifier : ∀ kind slot source predicate, motive source → motive predicate →
      motive (.quantifier kind slot source predicate)) :
    ∀ expression, motive expression
  | .constant value => constant value
  | .connective kind children =>
      connective kind children fun child _member =>
        induction constant connective negation comparison field literal quantifier child
  | .negation inner =>
      negation inner
        (induction constant connective negation comparison field literal quantifier inner)
  | .comparison kind lhs rhs =>
      comparison kind lhs rhs
        (induction constant connective negation comparison field literal quantifier lhs)
        (induction constant connective negation comparison field literal quantifier rhs)
  | .field slot path => field slot path
  | .literal value => literal value
  | .quantifier kind slot source predicate =>
      quantifier kind slot source predicate
        (induction constant connective negation comparison field literal quantifier source)
        (induction constant connective negation comparison field literal quantifier predicate)

def parts : Expression → List Expression
  | .constant _ | .field _ _ | .literal _ => []
  | .connective _ children => children
  | .negation inner => [inner]
  | .comparison _ lhs rhs => [lhs, rhs]
  | .quantifier _ _ source predicate => [source, predicate]

/-- Induction over expressions that does not tell their operators apart. -/
theorem induction_parts {motive : Expression → Prop}
    (step : ∀ expression, (∀ part ∈ expression.parts, motive part) → motive expression)
    (expression : Expression) : motive expression := by
  induction expression with
  | connective kind children ih => exact step _ ih
  | negation inner ih => exact step _ (by simpa [parts] using ih)
  | comparison kind lhs rhs lhsIH rhsIH => exact step _ (by simp [parts, lhsIH, rhsIH])
  | quantifier kind slot source predicate sourceIH predicateIH =>
      exact step _ (by simp [parts, sourceIH, predicateIH])
  | _ => exact step _ (by simp [parts])

mutual

/-- All nodes of an expression: itself, its parts, their parts, and so on. -/
def nodes : Expression → List Expression
  | .constant value => [.constant value]
  | .connective kind children => .connective kind children :: nodesAmong children
  | .negation inner => .negation inner :: inner.nodes
  | .comparison kind lhs rhs => .comparison kind lhs rhs :: (lhs.nodes ++ rhs.nodes)
  | .field slot path => [.field slot path]
  | .literal value => [.literal value]
  | .quantifier kind slot source predicate =>
      .quantifier kind slot source predicate :: (source.nodes ++ predicate.nodes)

def nodesAmong : List Expression → List Expression
  | [] => []
  | child :: children => child.nodes ++ nodesAmong children

end

/-- The document stays in the root slot: no quantifier fills that slot. -/
def KeepsRoot (expression : Expression) : Prop :=
  ∀ kind source predicate, .quantifier kind rootSlot source predicate ∉ expression.nodes

theorem mem_nodesAmong {node : Expression} {children : List Expression} :
    node ∈ nodesAmong children ↔ ∃ child ∈ children, node ∈ child.nodes := by
  induction children with
  | nil => simp [nodesAmong]
  | cons child children ih => simp [nodesAmong, ih]

theorem mem_nodes_iff {node expression : Expression} :
    node ∈ expression.nodes ↔ node = expression ∨ ∃ part ∈ expression.parts, node ∈ part.nodes := by
  cases expression <;> simp [nodes, parts, mem_nodesAmong]

theorem mem_nodes_of_part {node part expression : Expression} (member : part ∈ expression.parts)
    (occurs : node ∈ part.nodes) : node ∈ expression.nodes :=
  mem_nodes_iff.mpr (Or.inr ⟨part, member, occurs⟩)

theorem KeepsRoot.part {part expression : Expression} (keeps : expression.KeepsRoot)
    (member : part ∈ expression.parts) : part.KeepsRoot :=
  fun kind source predicate occurs =>
    keeps kind source predicate (mem_nodes_of_part member occurs)

theorem keepsRoot_iff {expression : Expression} :
    expression.KeepsRoot ↔
      (∀ kind source predicate, expression ≠ .quantifier kind rootSlot source predicate) ∧
        ∀ part ∈ expression.parts, part.KeepsRoot := by
  constructor
  · intro keeps
    refine ⟨?_, fun part member => keeps.part member⟩
    intro kind source predicate equal
    exact keeps kind source predicate (mem_nodes_iff.mpr (Or.inl equal.symm))
  · rintro ⟨own, inParts⟩ kind source predicate occurs
    rcases mem_nodes_iff.mp occurs with equal | ⟨part, member, occurs⟩
    · exact own kind source predicate equal.symm
    · exact inParts part member kind source predicate occurs

theorem depthAmong_le_iff {children : List Expression} {bound : Nat} :
    depthAmong children ≤ bound ↔ ∀ child ∈ children, child.depth ≤ bound := by
  induction children with
  | nil => simp [depthAmong]
  | cons child children ih => rw [depthAmong, Nat.max_le, ih, List.forall_mem_cons]

theorem highestSlotAmong_le_iff {children : List Expression} {bound : Nat} :
    highestSlotAmong children ≤ bound ↔ ∀ child ∈ children, child.highestSlot ≤ bound := by
  induction children with
  | nil => simp [highestSlotAmong, rootSlot]
  | cons child children ih => rw [highestSlotAmong, Nat.max_le, ih, List.forall_mem_cons]

theorem depth_pos (expression : Expression) : 0 < expression.depth := by
  cases expression <;> simp only [depth] <;> omega

/-- Beside one level of its own an expression has the levels of its parts. -/
theorem depth_le_succ_iff {expression : Expression} {bound : Nat} :
    expression.depth ≤ bound + 1 ↔ ∀ part ∈ expression.parts, part.depth ≤ bound := by
  cases expression with
  | connective kind children => simp only [depth, parts, ← depthAmong_le_iff]; omega
  | constant value => simp [depth, parts]
  | field slot path => simp [depth, parts]
  | literal value => simp [depth, parts]
  | negation inner =>
      simp only [depth, parts, List.mem_singleton, forall_eq]
      omega
  | comparison kind lhs rhs =>
      simp only [depth, parts, List.forall_mem_cons, List.not_mem_nil, false_imp_iff,
        implies_true, and_true]
      omega
  | quantifier kind slot source predicate =>
      simp only [depth, parts, List.forall_mem_cons, List.not_mem_nil, false_imp_iff,
        implies_true, and_true]
      omega

theorem depth_part_lt {part expression : Expression} (member : part ∈ expression.parts) :
    part.depth < expression.depth := by
  have positive := expression.depth_pos
  have parts_le : ∀ part ∈ expression.parts, part.depth ≤ expression.depth - 1 :=
    depth_le_succ_iff.mp (by omega)
  have := parts_le part member
  omega

theorem highestSlot_part_le {part expression : Expression} (member : part ∈ expression.parts) :
    part.highestSlot ≤ expression.highestSlot := by
  cases expression with
  | connective kind children =>
      exact highestSlotAmong_le_iff.mp (Nat.le_refl _) part member
  | _ => simp [parts] at member <;> grind [highestSlot]

end Expression

end JsonSieve
