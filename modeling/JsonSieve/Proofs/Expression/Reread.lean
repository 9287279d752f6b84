import JsonSieve.Proofs.Expression.Tree
import JsonSieve.Proofs.Json.Float

/-!
# Constants that are read again

A floating point constant need not be read as itself.  This file replaces every constant of an
expression by the one as which its written form is read.  The shape of the expression stays, and the
result is the same constant by constant if and only if each floating point constant is read as an
equal number.
-/

namespace JsonSieve

/-- The number as which the written form of a JSON number is read. -/
def Json.Number.reread : Json.Number → Json.Number
  | .integer value => .integer value
  | .float value => .float value.reread

def Scalar.reread : Scalar → Scalar
  | .float value => .float value.reread
  | value => value

namespace Expression

mutual

def reread : Expression → Expression
  | .constant value => .constant value
  | .connective kind children => .connective kind (rereadAll children)
  | .negation inner => .negation inner.reread
  | .comparison kind lhs rhs => .comparison kind lhs.reread rhs.reread
  | .field slot path => .field slot path
  | .literal value => .literal value.reread
  | .quantifier kind slot source predicate =>
      .quantifier kind slot source.reread predicate.reread

def rereadAll : List Expression → List Expression
  | [] => []
  | child :: children => child.reread :: rereadAll children

end

theorem rereadAll_eq_map (children : List Expression) :
    rereadAll children = children.map reread := by
  induction children with
  | nil => rfl
  | cons child children ih => rw [rereadAll, ih, List.map_cons]

theorem parts_reread (expression : Expression) :
    expression.reread.parts = expression.parts.map reread := by
  cases expression with
  | connective kind children => rw [reread, parts, parts, rereadAll_eq_map]
  | _ => rfl

theorem exists_node_of_reread {node expression : Expression}
    (occurs : node ∈ expression.reread.nodes) : ∃ own ∈ expression.nodes, own.reread = node := by
  induction expression using induction_parts with
  | step expression ih =>
      rcases mem_nodes_iff.mp occurs with rfl | ⟨part, member, occurs⟩
      · exact ⟨expression, mem_nodes_iff.mpr (Or.inl rfl), rfl⟩
      · rw [parts_reread] at member
        obtain ⟨ownPart, isPart, rfl⟩ := List.mem_map.mp member
        obtain ⟨own, isNode, rfl⟩ := ih ownPart isPart occurs
        exact ⟨own, mem_nodes_of_part isPart isNode, rfl⟩

theorem depth_reread_le_iff {expression : Expression} {bound : Nat} :
    expression.reread.depth ≤ bound ↔ expression.depth ≤ bound := by
  induction expression using induction_parts generalizing bound with
  | step expression ih =>
      cases bound with
      | zero =>
          have positive := expression.depth_pos
          have stillPositive := expression.reread.depth_pos
          omega
      | succ bound =>
          rw [depth_le_succ_iff, depth_le_succ_iff, parts_reread, List.forall_mem_map]
          exact forall₂_congr fun part member => ih part member

theorem highestSlot_reread (expression : Expression) :
    expression.reread.highestSlot = expression.highestSlot := by
  induction expression with
  | connective kind children ih =>
      have among : highestSlotAmong (rereadAll children) = highestSlotAmong children := by
        induction children with
        | nil => rfl
        | cons child children childrenIH =>
            rw [List.forall_mem_cons] at ih
            rw [rereadAll, highestSlotAmong, highestSlotAmong, ih.1, childrenIH ih.2]
      rw [reread, highestSlot, highestSlot, among]
  | negation inner ih => rw [reread, highestSlot, highestSlot, ih]
  | comparison kind lhs rhs lhsIH rhsIH =>
      rw [reread, highestSlot, highestSlot, lhsIH, rhsIH]
  | quantifier kind slot source predicate sourceIH predicateIH =>
      rw [reread, highestSlot, highestSlot, sourceIH, predicateIH]
  | _ => rfl

theorem KeepsRoot.reread {expression : Expression} (keeps : expression.KeepsRoot) :
    expression.reread.KeepsRoot := by
  intro kind source predicate occurs
  obtain ⟨node, isNode, equal⟩ := exists_node_of_reread occurs
  cases node with
  | quantifier kind slot source predicate =>
      rw [Expression.reread] at equal
      cases equal
      exact keeps kind source predicate isNode
  | _ => cases equal

def EachFloat (property : Binary64 → Prop) (expression : Expression) : Prop :=
  ∀ value, .literal (.float value) ∈ expression.nodes → property value

section EachFloat

variable {property : Binary64 → Prop}

theorem eachFloat_literal {value : Scalar} :
    EachFloat property (.literal value) ↔ ∀ number, value = .float number → property number := by
  simp [EachFloat, nodes, eq_comm]

theorem EachFloat.part {expression part : Expression} (each : expression.EachFloat property)
    (member : part ∈ expression.parts) : part.EachFloat property :=
  fun value occurs => each value (mem_nodes_of_part member occurs)

theorem eachFloat_iff {expression : Expression}
    (compound : ∀ value, expression ≠ .literal value) :
    expression.EachFloat property ↔ ∀ part ∈ expression.parts, part.EachFloat property := by
  refine ⟨fun each part member => each.part member, fun each value occurs => ?_⟩
  rcases mem_nodes_iff.mp occurs with own | ⟨part, member, occurs⟩
  · exact absurd own.symm (compound _)
  · exact each part member value occurs

end EachFloat

theorem EachFloat.reread {property : Binary64 → Prop} {expression : Expression}
    (each : expression.EachFloat fun value => property value.reread) :
    expression.reread.EachFloat property := by
  intro value occurs
  obtain ⟨node, isNode, equal⟩ := exists_node_of_reread occurs
  cases node with
  | literal constant =>
      cases constant with
      | float number =>
          cases equal
          exact each number isNode
      | _ => cases equal
  | _ => cases equal

theorem reread_eq_self {expression : Expression}
    (each : expression.EachFloat fun value => value.reread = value) :
    expression.reread = expression := by
  induction expression with
  | constant value => rfl
  | field slot path => rfl
  | literal value =>
      cases value with
      | float number => rw [reread, Scalar.reread, eachFloat_literal.mp each number rfl]
      | _ => rfl
  | connective kind children ih =>
      have same : ∀ child ∈ children, child.reread = id child := fun child member =>
        ih child member (each.part member)
      rw [reread, rereadAll_eq_map, List.map_congr_left same, List.map_id]
  | negation inner ih => rw [reread, ih (each.part (by simp [parts]))]
  | comparison kind lhs rhs lhsIH rhsIH =>
      rw [reread, lhsIH (each.part (by simp [parts])), rhsIH (each.part (by simp [parts]))]
  | quantifier kind slot source predicate sourceIH predicateIH =>
      rw [reread, sourceIH (each.part (by simp [parts])),
        predicateIH (each.part (by simp [parts]))]

/-- An expression agrees with what is read if and only if each of its floating point constants is
numerically equal to what is read. -/
theorem agrees_reread_iff {expression : Expression} :
    expression.reread.agrees expression = true ↔
      expression.EachFloat fun value => value.reread.equals value = true := by
  induction expression with
  | literal value =>
      rw [eachFloat_literal]
      cases value <;> simp [reread, Scalar.reread, agrees, Scalar.agrees]
  | connective kind children ih =>
      have among : agreeAll (rereadAll children) children = true ↔
          ∀ child ∈ children, child.EachFloat fun value => value.reread.equals value = true := by
        induction children with
        | nil => simp [rereadAll, agreeAll]
        | cons child children childrenIH =>
            rw [List.forall_mem_cons] at ih ⊢
            rw [rereadAll, agreeAll, Bool.and_eq_true, ih.1, childrenIH ih.2]
      rw [eachFloat_iff (by simp), parts, ← among, reread]
      simp [agrees]
  | _ =>
      rw [eachFloat_iff (by simp)]
      simp_all [reread, agrees, parts]

end Expression

end JsonSieve
