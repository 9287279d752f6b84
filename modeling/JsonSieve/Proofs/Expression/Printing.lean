import JsonSieve.Proofs.Expression.Grammar
import JsonSieve.Proofs.Expression.Reread
import JsonSieve.Proofs.Json.RoundTrip

/-!
# Printed filters

An expression is printed as an array of its operator and its arguments.  If its slots are within
the limit, no quantifier fills the root slot and all its floating point constants are finite then
this array is a written form of the expression.

The text of the array is always read.  What is read is the array of the expression with its
constants read again, so that the levels of the expression decide alone whether it is accepted.
-/

namespace JsonSieve

namespace Expression

def arguments : Expression → List Json.Value
  | .constant _ => []
  | .connective _ children => children.map toJson
  | .negation inner => [inner.toJson]
  | .comparison _ lhs rhs => [lhs.toJson, rhs.toJson]
  | .field slot path => fieldArguments slot path
  | .literal value => [value.toJson]
  | .quantifier _ slot source predicate => [.ofSlot slot, source.toJson, predicate.toJson]

theorem toJsonAll_eq_map (children : List Expression) :
    toJsonAll children = children.map toJson := by
  induction children with
  | nil => rfl
  | cons child children ih => rw [toJsonAll, ih, List.map_cons]

theorem toJson_eq (expression : Expression) :
    expression.toJson = .array (.string expression.operator.name :: expression.arguments) := by
  cases expression with
  | connective kind children => rw [toJson, toJsonAll_eq_map]; rfl
  | _ => simp only [toJson, operator, arguments]

theorem arguments_cases {expression : Expression} {argument : Json.Value}
    (member : argument ∈ expression.arguments) :
    (∃ part ∈ expression.parts, argument = part.toJson) ∨
      (∃ value, expression = .literal value ∧ argument = value.toJson) ∨
      (∃ text, argument = .string text) ∨
      ∃ slot, slot ≤ expression.highestSlot ∧ argument = .ofSlot slot := by
  cases expression with
  | constant value => cases member
  | connective kind children =>
      obtain ⟨child, isChild, rfl⟩ := List.mem_map.mp member
      exact Or.inl ⟨child, isChild, rfl⟩
  | negation inner =>
      obtain rfl := List.mem_singleton.mp member
      exact Or.inl ⟨inner, by simp [parts], rfl⟩
  | comparison kind lhs rhs =>
      rcases List.mem_pair.mp member with rfl | rfl
      · exact Or.inl ⟨lhs, by simp [parts], rfl⟩
      · exact Or.inl ⟨rhs, by simp [parts], rfl⟩
  | field slot path =>
      have isScalar : argument = .ofSlot slot ∨ argument = .string path := by
        simp only [arguments, fieldArguments] at member
        grind
      rcases isScalar with rfl | rfl
      · exact Or.inr (Or.inr (Or.inr ⟨slot, le_rfl, rfl⟩))
      · exact Or.inr (Or.inr (Or.inl ⟨path, rfl⟩))
  | literal value =>
      obtain rfl := List.mem_singleton.mp member
      exact Or.inr (Or.inl ⟨value, rfl, rfl⟩)
  | quantifier kind slot source predicate =>
      rcases List.mem_cons.mp member with rfl | member
      · exact Or.inr (Or.inr (Or.inr ⟨slot, le_max_left .., rfl⟩))
      · rcases List.mem_pair.mp member with rfl | rfl
        · exact Or.inl ⟨source, by simp [parts], rfl⟩
        · exact Or.inl ⟨predicate, by simp [parts], rfl⟩

theorem settled_array {items : List Json.Value} (each : ∀ item ∈ items, item.settled = item) :
    (Json.Value.array items).settled = .array items := by
  have same : ∀ item ∈ items, item.settled = id item := each
  rw [Json.Value.settled, Json.Value.settledItems_eq_map, List.map_congr_left same, List.map_id]

theorem settled_scalar (value : Scalar) : value.toJson.settled = value.toJson := by
  cases value with
  | float value =>
      rw [Scalar.toJson]
      split <;> rfl
  | _ => rfl

/-- There are no objects in a printed expression to be settled. -/
theorem settled_toJson (expression : Expression) :
    expression.toJson.settled = expression.toJson := by
  induction expression using induction_parts with
  | step expression ih =>
      rw [toJson_eq]
      refine settled_array (List.forall_mem_cons.mpr ⟨rfl, fun argument member => ?_⟩)
      rcases arguments_cases member with ⟨part, isPart, rfl⟩ | ⟨value, -, rfl⟩ | ⟨text, rfl⟩ |
        ⟨slot, -, rfl⟩
      · exact ih part isPart
      · exact settled_scalar value
      · rfl
      · rfl

theorem toJson_reread_scalar (value : Scalar) :
    value.reread.toJson = value.toJson.mapNumbers Json.Number.reread := by
  cases value with
  | float value =>
      cases finite : value.isFinite with
      | false =>
          rw [Scalar.reread, Binary64.reread_of_not_finite finite, Scalar.toJson, finite]
          rfl
      | true =>
          have reread := (Binary64.read?_writtenFloat finite).2.1
          rw [Scalar.reread, Scalar.toJson, Scalar.toJson, if_pos finite, if_pos reread]
          rfl
  | _ => rfl

theorem arguments_reread {expression : Expression}
    (each : ∀ part ∈ expression.parts,
      part.reread.toJson = part.toJson.mapNumbers Json.Number.reread) :
    expression.reread.arguments =
      expression.arguments.map (Json.Value.mapNumbers Json.Number.reread) := by
  cases expression with
  | connective kind children =>
      rw [reread, arguments, arguments, rereadAll_eq_map, List.map_map, List.map_map]
      exact List.map_congr_left each
  | literal value =>
      rw [reread, arguments, arguments, toJson_reread_scalar]
      rfl
  | field slot path =>
      simp only [reread, arguments, fieldArguments]
      split <;> split <;> rfl
  | _ => simp_all [reread, arguments, parts, Json.Value.mapNumbers, Json.Value.ofSlot,
      Json.Number.reread]

theorem toJson_reread (expression : Expression) :
    expression.reread.toJson = expression.toJson.mapNumbers Json.Number.reread := by
  induction expression using induction_parts with
  | step expression ih =>
      have sameOperator : expression.reread.operator = expression.operator := by
        cases expression <;> rfl
      rw [toJson_eq, toJson_eq, sameOperator, arguments_reread ih, Json.Value.mapNumbers,
        Json.Value.mapNumbersOfItems_eq_map]
      rfl

/-- An expression without a slot that cannot be named, without a quantifier over the root slot and
without a floating point constant that has no numeral. -/
structure Writable (expression : Expression) : Prop where
  slots : expression.highestSlot ≤ slotLimit
  keepsRoot : expression.KeepsRoot
  finite : expression.EachFloat fun value => value.isFinite

namespace Writable

variable {expression : Expression}

theorem part {part : Expression} (writable : expression.Writable)
    (member : part ∈ expression.parts) : part.Writable where
  slots := Nat.le_trans (highestSlot_part_le member) writable.slots
  keepsRoot := writable.keepsRoot.part member
  finite := writable.finite.part member

theorem reread (writable : expression.Writable) : expression.reread.Writable where
  slots := expression.highestSlot_reread ▸ writable.slots
  keepsRoot := writable.keepsRoot.reread
  finite := EachFloat.reread fun value occurs =>
    (Binary64.read?_writtenFloat (writable.finite value occurs)).2.1

theorem spellsScalar {value : Scalar} (writable : (Expression.literal value).Writable) :
    SpellsScalar value.toJson value := by
  cases value with
  | float value =>
      have finite := writable.finite value (by simp [nodes])
      rw [Scalar.toJson, if_pos finite]
      exact .float value
  | string text => exact .string text
  | integer value => exact .integer value
  | boolean value => exact .boolean value
  | null => exact .null

theorem fieldParts {slot : Nat} {path : String}
    (writable : (Expression.field slot path).Writable) :
    ∃ segments, String.join segments = path ∧
      FieldParts (fieldArguments slot path) slot (segments.map .string) := by
  have spells : SpellsSlot (.ofSlot slot) slot := .number slot writable.slots
  by_cases empty : path = ""
  · refine ⟨[], by rw [empty]; rfl, ?_⟩
    simpa [fieldArguments, empty] using FieldParts.slot [] spells
  · refine ⟨[path], by simp, ?_⟩
    by_cases root : slot = rootSlot
    · subst root
      simpa [fieldArguments, empty] using FieldParts.root (.string path) [] (by simp)
    · simpa [fieldArguments, empty, root] using FieldParts.slot [.string path] spells

theorem spellsOwnSlot {kind : Quantifier} {slot : Nat} {source predicate : Expression}
    (writable : (Expression.quantifier kind slot source predicate).Writable) :
    SpellsSlot (.ofSlot slot) slot ∧ slot ≠ rootSlot := by
  refine ⟨.number slot (Nat.le_trans (Nat.le_max_left ..) writable.slots), ?_⟩
  rintro rfl
  exact writable.keepsRoot kind source predicate (by simp [nodes])

theorem wireForm (writable : expression.Writable) : WireForm expression.toJson expression := by
  induction expression with
  | constant value =>
      rw [toJson_eq]
      exact .application (.constant value)
  | connective kind children ih =>
      rw [toJson_eq]
      refine .application (.connective kind ?_)
      rw [arguments, List.forall₂_map_left_iff, List.forall₂_same]
      exact fun child member => ih child member (writable.part member)
  | negation inner ih =>
      rw [toJson_eq]
      exact .application (.negation (ih (writable.part (by simp [parts]))))
  | comparison kind lhs rhs lhsIH rhsIH =>
      rw [toJson_eq]
      exact .application (.comparison kind (lhsIH (writable.part (by simp [parts])))
        (rhsIH (writable.part (by simp [parts]))))
  | field slot path =>
      obtain ⟨segments, rfl, split⟩ := writable.fieldParts
      rw [toJson_eq]
      exact .application (.field split)
  | literal value =>
      rw [toJson_eq]
      exact .application (.literal writable.spellsScalar)
  | quantifier kind slot source predicate sourceIH predicateIH =>
      obtain ⟨spells, own⟩ := writable.spellsOwnSlot
      rw [toJson_eq]
      exact .application (.quantifier kind spells own (sourceIH (writable.part (by simp [parts])))
        (predicateIH (writable.part (by simp [parts]))))

theorem operands (writable : expression.Writable) (compound : expression.parts ≠ []) :
    Operands expression.operator expression.arguments (expression.parts.map toJson) := by
  cases expression with
  | connective kind children => exact .connective kind (children.map toJson)
  | negation inner => exact .negation inner.toJson
  | comparison kind lhs rhs => exact .comparison kind lhs.toJson rhs.toJson
  | quantifier kind slot source predicate =>
      obtain ⟨spells, own⟩ := writable.spellsOwnSlot
      exact .quantifier kind source.toJson predicate.toJson spells own
  | _ => exact absurd rfl compound

theorem firstOffence (writable : expression.Writable) {levels : Nat}
    (deep : levels < expression.depth) :
    FirstOffence levels expression.toJson (.tooDeep depthLimit) := by
  induction levels generalizing expression with
  | zero => rfl
  | succ levels ih =>
      have found : (expression.parts.find? fun part => levels < part.depth).isSome := by
        apply Decidable.byContradiction
        intro missing
        have shallow : expression.depth ≤ levels + 1 := depth_le_succ_iff.mpr (by
          simpa using missing)
        omega
      obtain ⟨part, isFirst⟩ := Option.isSome_iff_exists.mp found
      obtain ⟨isDeep, before, after, split, shallow⟩ :=
        List.find?_eq_some_iff_append.mp isFirst
      have isPart : ∀ other ∈ before ++ part :: after, other.Writable :=
        fun other member => writable.part (split ▸ member)
      have operands := writable.operands (by simp [split])
      rw [split, List.map_append, List.map_cons] at operands
      -- The parts before the first deep one are accepted, so that its offence is the first.
      rw [toJson_eq]
      refine .application (.operand operands ?_
        (ih (isPart part (by simp)) (by simpa using isDeep)))
      intro earlier member
      obtain ⟨other, isEarlier, rfl⟩ := List.mem_map.mp member
      refine ⟨other, (isPart other (by simp [isEarlier])).wireForm, ?_⟩
      simpa using shallow other isEarlier

theorem slot_fitsAs {slot : Nat} (within : slot ≤ slotLimit) (levels : Nat) :
    (Json.Value.ofSlot slot).FitsAs Json.Number.reread levels := by
  refine .number levels (Json.Numeral.readsBack_integer ⟨by omega, ?_⟩)
  simp only [slotLimit, depthLimit] at within
  omega

theorem scalar_fitsAs {value : Scalar} (writable : (Expression.literal value).Writable)
    (levels : Nat) : value.toJson.FitsAs Json.Number.reread levels := by
  cases value with
  | float value =>
      have finite := writable.finite value (by simp [nodes])
      rw [Scalar.toJson, if_pos finite]
      exact .number levels (Binary64.read?_writtenFloat finite).1
  | integer value =>
      have inRange : -2 ^ 63 ≤ value.toInt ∧ value.toInt < 2 ^ 63 :=
        ⟨value.le_toInt, value.toInt_lt⟩
      exact .number levels (Json.Numeral.readsBack_integer ⟨inRange.1, by omega⟩)
  | string text => exact .string levels text
  | boolean value => exact .boolean levels value
  | null => exact .null levels

/-- The text of a printed expression is read within the levels of the expression, each number as it
is read by itself. -/
theorem fitsAs (writable : expression.Writable) {levels : Nat}
    (within : expression.depth ≤ levels) :
    expression.toJson.FitsAs Json.Number.reread levels := by
  induction levels generalizing expression with
  | zero => exact absurd expression.depth_pos (by omega)
  | succ levels ih =>
      rw [toJson_eq]
      refine .array (List.forall_mem_cons.mpr ⟨.string levels _, fun argument member => ?_⟩)
      rcases arguments_cases member with ⟨part, isPart, rfl⟩ | ⟨value, rfl, rfl⟩ | ⟨text, rfl⟩ |
        ⟨slot, le, rfl⟩
      · exact ih (writable.part isPart) (depth_le_succ_iff.mp within part isPart)
      · exact writable.scalar_fitsAs levels
      · exact .string levels text
      · exact slot_fitsAs (le.trans writable.slots) levels

theorem parse_text (writable : expression.Writable) (within : expression.depth ≤ 127) :
    parse (Utf8.encode expression.text) = ofValue expression.reread.toJson := by
  rw [parse, text, Json.ofBytes?_encode_text_fitsAs (writable.fitsAs within), ← toJson_reread]
  exact congrArg ofValue (settled_toJson expression.reread)

/-- A printed expression within the limits is read as the expression with its constants read
again. -/
theorem parse_text_eq_ok (writable : expression.Writable)
    (within : expression.depth ≤ depthLimit) :
    parse (Utf8.encode expression.text) = .ok expression.reread := by
  rw [writable.parse_text (within.trans (by decide))]
  exact ((ofJson_iff depthLimit _).1 _).mpr
    ⟨writable.reread.wireForm, depth_reread_le_iff.mpr within⟩

end Writable

end Expression

end JsonSieve
