import JsonSieve.Proofs.Evaluation.Meaning
import JsonSieve.Proofs.Evaluation.Numbers
import JsonSieve.Proofs.Expression.Grammar
import JsonSieve.Proofs.Json.Assembly

/-!
# Where operands come from

A filter compares members of a document and constants of its own, and what is a member here may be a
constant there.  The text of a scalar becomes the same scalar in both places, so a comparison of the
same texts has the same verdict, or the same error, wherever each of them stands.
-/

namespace JsonSieve

open Json

def ReadsScalar (text : String) (scalar : Scalar) : Prop :=
  ∃ value, Json.read? text = some value ∧ Scalar.ofJson? value = some scalar

/-- The place of the text of an operand: a member of the document, or a constant of the filter. -/
inductive OperandSource
  | member
  | constant

def comparisonOf (comparison : Comparison) (lhs rhs : String) : String :=
  arrayText [(Value.string comparison.name).text, lhs, rhs]

namespace OperandSource

/-- How a filter writes an operand whose text stands in the document under a key, or else in the
filter. -/
def operandText (source : OperandSource) (key text : String) : String :=
  match source with
  | .member => arrayText [(Value.string "field").text, (Value.string key).text]
  | .constant => arrayText [(Value.string "value").text, text]

/-- What the document holds of an operand. -/
def members {Content : Type} (source : OperandSource) (key : String) (content : Content) :
    List (String × Content) :=
  match source with
  | .member => [(key, content)]
  | .constant => []

end OperandSource

def wholeText : String :=
  arrayText [(Value.string "field").text, "0"]

def SpellsOperand (text : String) (operand : Expression) : Prop :=
  ∃ json, Reader.Reads 4 text json ∧ Expression.WireForm json.settled operand ∧ operand.depth = 1

theorem settled_of_isScalar {value : Value} {scalar : Scalar}
    (isScalar : Scalar.ofJson? value = some scalar) : value.settled = value := by
  cases value <;> first | rfl | cases isScalar

theorem spellsOperand_member (key : String) :
    SpellsOperand (OperandSource.member.operandText key "") (.field rootSlot key) := by
  have reads := Reader.reads_arrayText 1 [((Value.string "field").text, .string "field"),
    ((Value.string key).text, .string key)] (by simp [Reader.reads_string])
  have field : Expression.Application Expression.WireForm .field [.string key]
      (.field rootSlot (String.join [key])) := .field (.root (.string key) [] (by simp))
  have join : String.join [key] = key := by simp
  rw [join] at field
  exact ⟨_, reads, .application field, rfl⟩

theorem spellsOperand_whole : SpellsOperand wholeText (.field rootSlot "") := by
  have zero : Json.read? "0" = some (.number (.integer 0)) := by cbv
  have readsZero : Reader.Reads 1 "0" (.number (.integer 0)) := Reader.reads_scalar zero rfl
  have reads := Reader.reads_arrayText 1 [((Value.string "field").text, .string "field"),
    ("0", .number (.integer 0))] (by simp [Reader.reads_string, readsZero])
  have field : Expression.Application Expression.WireForm .field [.ofSlot 0]
      (.field rootSlot (String.join [])) := .field (.slot [] (.number 0 (by decide)))
  exact ⟨_, reads, .application field, rfl⟩

theorem spellsOperand_constant {text : String} {value : Value} {scalar : Scalar}
    (read : Json.read? text = some value) (isScalar : Scalar.ofJson? value = some scalar) :
    SpellsOperand (OperandSource.constant.operandText "" text) (.literal scalar) := by
  have reads := Reader.reads_arrayText 1 [((Value.string "value").text, .string "value"),
    (text, value)] (by simp [Reader.reads_string, Reader.reads_scalar read isScalar])
  have wireForm : Expression.WireForm (Value.array [.string "value", value]).settled
      (.literal scalar) := by
    rw [Value.settled, Value.settledItems, Value.settledItems, Value.settledItems,
      settled_of_isScalar isScalar]
    exact .application (.literal (Expression.ofJson?_eq_some_iff.mp isScalar))
  exact ⟨_, reads, wireForm, rfl⟩

theorem parse_comparisonOf (comparison : Comparison) {lhs rhs : String}
    {leftOperand rightOperand : Expression} (left : SpellsOperand lhs leftOperand)
    (right : SpellsOperand rhs rightOperand) :
    Expression.parse (Utf8.encode (comparisonOf comparison lhs rhs)) =
      .ok (.comparison comparison leftOperand rightOperand) := by
  obtain ⟨leftJson, readsLeft, leftForm, leftFlat⟩ := left
  obtain ⟨rightJson, readsRight, rightForm, rightFlat⟩ := right
  have readsName := (Reader.reads_string comparison.name).mono (show 1 ≤ 4 by decide)
  have reads : Reader.Reads 8 (comparisonOf comparison lhs rhs)
      (.array [.string comparison.name, leftJson, rightJson]) :=
    Reader.reads_arrayText 4 [((Value.string comparison.name).text, .string comparison.name),
      (lhs, leftJson), (rhs, rightJson)] (by simp [readsName, readsLeft, readsRight])
  have read : Json.read? (comparisonOf comparison lhs rhs) =
      some (.array [.string comparison.name, leftJson, rightJson]) := by
    refine read?_of_reads reads (toList_arrayText _) (by decide) ?_ (by decide)
    simp only [List.map_cons, List.map_nil, commaSeparated, List.length_append, List.length_cons]
    omega
  have wireForm : Expression.WireForm
      (Value.array [.string comparison.name, leftJson, rightJson]).settled
      (.comparison comparison leftOperand rightOperand) :=
    .application (.comparison comparison leftForm rightForm)
  have depth : (Expression.comparison comparison leftOperand rightOperand).depth ≤
      Expression.depthLimit := by
    rw [Expression.depth, leftFlat, rightFlat]
    decide
  rw [Expression.parse, ofBytes?_encode, read]
  exact ((Expression.ofJson_iff Expression.depthLimit _).1 _).mpr ⟨wireForm, depth⟩

namespace OperandSource

def operand (source : OperandSource) (key : String) (scalar : Scalar) : Expression :=
  match source with
  | .member => .field rootSlot key
  | .constant => .literal scalar

theorem spells_operandText (source : OperandSource) (key : String) {text : String} {value : Value}
    {scalar : Scalar} (read : Json.read? text = some value)
    (isScalar : Scalar.ofJson? value = some scalar) :
    SpellsOperand (source.operandText key text) (source.operand key scalar) := by
  cases source with
  | member => exact spellsOperand_member key
  | constant => exact spellsOperand_constant read isScalar

def document (left right : OperandSource) (first second : Value) : Value :=
  .object (left.members "a" first ++ right.members "b" second)

theorem map_members {Content Other : Type} (source : OperandSource) (key : String)
    (content : Content) (change : Content → Other) :
    (source.members key content).map (fun member => (member.1, change member.2)) =
      source.members key (change content) := by
  cases source <;> rfl

theorem read?_document (left right : OperandSource) {text other : String} {first second : Value}
    (readsFirst : Reader.Reads 1 text first) (readsSecond : Reader.Reads 1 other second) :
    Json.read? (objectText (left.members "a" text ++ right.members "b" other)) =
      some (document left right first second) := by
  have reads := Reader.reads_objectText 1
    (left.members "a" (text, first) ++ right.members "b" (other, second))
    (by cases left <;> cases right <;> simp [members, readsFirst, readsSecond])
  have short :
      (left.members "a" (text, first) ++ right.members "b" (other, second)).length ≤ 2 := by
    cases left <;> cases right <;> simp [members]
  rw [List.map_append, List.map_append, map_members, map_members, map_members, map_members] at reads
  refine read?_of_reads (reads.mono (show _ ≤ 4 by omega)) (toList_objectText _) (by decide) ?_
    (by decide)
  rw [List.length_append, List.length_singleton]
  omega

variable {content : List (String × Value)} {value : Value} {scalar : Scalar} {key : String}

/-- The operand is the scalar of its text, wherever that stands. -/
theorem operand_eq_ok (source : OperandSource) (isScalar : Scalar.ofJson? value = some scalar)
    (bare : Path.readStep? key.toList = some (.key key, []))
    (found : source = .member → Value.member? key content = some value) :
    Evaluation.operand (Evaluation.initial (.object content)) (source.operand key scalar) =
      .ok scalar := by
  cases source with
  | constant => rfl
  | member => exact Evaluation.operand_of_resolve (Path.resolve_member bare (found rfl)) isScalar

end OperandSource

namespace Evaluation

/-- Two texts of scalars compare alike, or fail alike, wherever in documents and filters each of
them stands.  A filter with the text of a scalar accepts the document of this text. -/
theorem operand_sources_do_not_matter {text other : String} {first second : Scalar}
    (isFirst : ReadsScalar text first) (isSecond : ReadsScalar other second) :
    (∀ comparison left right, ∃ filter document,
      Expression.parse (Utf8.encode (comparisonOf comparison
        (OperandSource.operandText left "a" text) (OperandSource.operandText right "b" other))) =
        .ok filter ∧
      ofBytes? (Utf8.encode (objectText
        (left.members "a" text ++ right.members "b" other))) = some document ∧
      ∀ limits : Limits, verdictOn limits document filter =
        if limits.depthLimit < 1 then .error (.tooDeep limits.depthLimit)
        else compareScalars comparison first second) ∧
    ∃ filter document,
      Expression.parse (Utf8.encode (comparisonOf .equal wholeText
        (OperandSource.constant.operandText "" text))) = .ok filter ∧
      ofBytes? (Utf8.encode text) = some document ∧
      ∀ limits : Limits, 1 ≤ limits.depthLimit → verdictOn limits document filter = .ok true := by
  obtain ⟨value, read, isScalar⟩ := isFirst
  obtain ⟨otherValue, readOther, otherIsScalar⟩ := isSecond
  constructor
  · intro comparison left right
    refine ⟨_, left.document right value otherValue,
      parse_comparisonOf comparison (left.spells_operandText "a" read isScalar)
        (right.spells_operandText "b" readOther otherIsScalar), ?_, ?_⟩
    · rw [ofBytes?_encode]
      exact left.read?_document right (Reader.reads_scalar read isScalar)
        (Reader.reads_scalar readOther otherIsScalar)
    · intro limits
      refine verdictOn_comparison ?_ ?_ limits comparison
      · exact left.operand_eq_ok isScalar (by cbv) (by rintro rfl; rfl)
      · exact right.operand_eq_ok otherIsScalar (by cbv) (by rintro rfl; cases left <;> rfl)
  · have readable : value.Readable := readable_of_ofBytes? (by rw [ofBytes?_encode, read])
    refine ⟨_, value,
      parse_comparisonOf .equal spellsOperand_whole (spellsOperand_constant read isScalar),
      by rw [ofBytes?_encode, read], ?_⟩
    intro limits positive
    have isWhole : operand (initial value) (.field rootSlot "") = .ok first :=
      operand_of_resolve (Path.follow_nil "" value) isScalar
    rw [verdictOn_comparison isWhole rfl, if_neg (by omega)]
    exact Scalar.equal_self (Scalar.isNaN_eq_false_of_readable readable isScalar)

/-- A text from the document, written with an escape, and a null from the filter, with blanks
around it. -/
theorem escaped_text_and_null_compared :
    ReadsScalar "\"\\u00e9\"" (.string "é") ∧ ReadsScalar " null " .null ∧
    ∃ filter document,
      Expression.parse (Utf8.encode "[\"lessthan\",[\"field\",\"a\"],[\"value\", null ]]") =
        .ok filter ∧
      ofBytes? (Utf8.encode "\x7b\"a\":\"\\u00e9\"\x7d") = some document ∧
      verdictOn ⟨1, false⟩ document filter = .error (.mismatch .less .string .null) := by
  have isText : ReadsScalar "\"\\u00e9\"" (.string "é") := ⟨.string "é", by cbv, rfl⟩
  have isNull : ReadsScalar " null " .null := ⟨.null, by cbv, rfl⟩
  obtain ⟨filter, document, isFilter, isDocument, verdicts⟩ :=
    (operand_sources_do_not_matter isText isNull).1 .less .member .constant
  exact ⟨isText, isNull, filter, document, isFilter, isDocument, verdicts ⟨1, false⟩⟩

end Evaluation

end JsonSieve
