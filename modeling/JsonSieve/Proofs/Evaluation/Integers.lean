import JsonSieve.Proofs.Evaluation.Meaning
import JsonSieve.Proofs.Expression.RoundTrip
import JsonSieve.Proofs.Scalar.Numbers

/-!
# Integers in filters and documents

An integer is written in a filter and in a document in the same way, and it becomes the same scalar
in both: an integer as long as it fits into 64 bits with its sign, and the nearest floating point
number beyond that.

So a filter that compares a member of a document with an integer compares the two integers
exactly if both fit.  Integers that do not fit are compared as floating point numbers are.  This is
the order of the integers as well, except that integers with the same nearest number count as equal.
-/

namespace JsonSieve

/-- A filter that compares the member `k` of a document with an integer, as text. -/
def comparisonText (comparison : Comparison) (integer : Int) : String :=
  "[\"" ++ comparison.name ++ "\",[\"field\",\"k\"],[\"value\"," ++ toString integer ++ "]]"

def documentText (integer : Int) : String :=
  "\x7b\"k\":" ++ toString integer ++ "\x7d"

namespace Expression

def comparisonWith (comparison : Comparison) (integer : Int) : Expression :=
  .comparison comparison (.field rootSlot "k") (.literal (Scalar.ofNumber (.integer integer)))

def comparisonJson (comparison : Comparison) (integer : Int) : Json.Value :=
  .array [.string comparison.name, .array [.string "field", .string "k"],
    .array [.string "value", .number (.integer integer)]]

end Expression

def documentWith (integer : Int) : Json.Value :=
  .object [("k", .number (.integer integer))]

theorem toList_repr (integer : Int) : integer.repr.toList = Json.writtenInteger integer := by
  cases integer with
  | ofNat natural => exact Nat.toList_repr
  | negSucc natural =>
      have negative : Int.negSucc natural < 0 := Int.negSucc_lt_zero natural
      rw [Int.repr, String.toList_append, Nat.toList_repr, Json.writtenInteger, if_pos negative]
      rfl

theorem comparisonText_eq (comparison : Comparison) (integer : Int) :
    comparisonText comparison integer = (Expression.comparisonJson comparison integer).text := by
  apply String.toList_inj.mp
  cases comparison <;>
    simp [comparisonText, Expression.comparisonJson, Comparison.name, Json.Value.text,
      Json.Value.written, Json.Value.writtenItems, Json.commaSeparated, Json.writtenNumber,
      Json.quoted, Json.escaped, toList_repr]

theorem documentText_eq (integer : Int) : documentText integer = (documentWith integer).text := by
  apply String.toList_inj.mp
  simp [documentText, documentWith, Json.Value.text, Json.Value.written, Json.Value.writtenMembers,
    Json.commaSeparated, Json.writtenNumber, Json.quoted, Json.escaped, toList_repr]

theorem ofBytes?_documentText {integer : Int} (fits : -2 ^ 63 ≤ integer ∧ integer < 2 ^ 64) :
    Json.ofBytes? (Utf8.encode (documentText integer)) = some (documentWith integer) := by
  rw [documentText_eq]
  refine Json.ofBytes?_encode_text (.object ?_)
  simpa using Json.Value.Fits.number _ (Json.Numeral.readsBack_integer fits)

namespace Expression

theorem wireForm_comparisonJson (comparison : Comparison) (integer : Int) :
    WireForm (comparisonJson comparison integer) (comparisonWith comparison integer) := by
  have field : Application WireForm .field [.string "k"] (.field rootSlot (String.join ["k"])) :=
    .field (.root (.string "k") [] (by simp))
  have literal : SpellsScalar (.number (.integer integer)) (Scalar.ofNumber (.integer integer)) :=
    ofJson?_eq_some_iff.mp rfl
  exact .application (.comparison comparison (.application field) (.application (.literal literal)))

theorem parse_comparisonText {integer : Int} (fits : -2 ^ 63 ≤ integer ∧ integer < 2 ^ 64)
    (comparison : Comparison) :
    parse (Utf8.encode (comparisonText comparison integer)) =
      .ok (comparisonWith comparison integer) := by
  have number : ∀ levels, (Json.Value.number (.integer integer)).Fits levels := fun levels =>
    .number levels (Json.Numeral.readsBack_integer fits)
  have jsonFits : (comparisonJson comparison integer).Fits Json.Reader.deepestNesting := by
    refine .array (List.forall_mem_cons.mpr ⟨.string _ _, List.forall_mem_cons.mpr ⟨.array ?_,
      List.forall_mem_singleton.mpr (.array ?_)⟩⟩)
    · simpa using ⟨Json.Value.Fits.string _ _, Json.Value.Fits.string _ _⟩
    · simpa using ⟨Json.Value.Fits.string _ _, number _⟩
  have depth : (comparisonWith comparison integer).depth ≤ depthLimit := by
    simp [comparisonWith, depth, depthLimit]
  rw [comparisonText_eq, parse, Json.ofBytes?_encode_text jsonFits]
  exact ((ofJson_iff depthLimit _).1 _).mpr ⟨wireForm_comparisonJson comparison integer, depth⟩

end Expression

theorem Comparison.relates_intCast (comparison : Comparison) (first second : Int) :
    comparison.Relates ((first : ℝ) : EReal) ((second : ℝ) : EReal) ↔
      comparison.Relates first second := by
  cases comparison <;> simp [Comparison.Relates]

namespace Scalar

variable {integer found written : Int}

theorem ofNumber_integer_of_lt (fits : -2 ^ 63 ≤ integer) (narrow : integer < 2 ^ 63) :
    ofNumber (.integer integer) = .integer (Int64.ofInt integer) ∧
      (Int64.ofInt integer).toInt = integer := by
  have least : Int64.minValue.toInt = -2 ^ 63 := by decide
  have greatest : Int64.maxValue.toInt = 2 ^ 63 - 1 := by decide
  refine ⟨if_pos ⟨by omega, by omega⟩, Int64.toInt_ofInt_of_le fits narrow⟩

theorem ofNumber_integer_of_le (wide : 2 ^ 63 ≤ integer) :
    ofNumber (.integer integer) = .float (Binary64.ofInt integer) := by
  have greatest : Int64.maxValue.toInt = 2 ^ 63 - 1 := by decide
  exact if_neg (by omega)

theorem comparedAs_of_narrow (foundFits : -2 ^ 63 ≤ found) (foundNarrow : found < 2 ^ 63)
    (writtenFits : -2 ^ 63 ≤ written) (writtenNarrow : written < 2 ^ 63) :
    ComparedAs (ofNumber (.integer found)) (ofNumber (.integer written)) ((found : ℝ) : EReal)
      ((written : ℝ) : EReal) := by
  obtain ⟨isInteger, value⟩ := ofNumber_integer_of_lt foundFits foundNarrow
  obtain ⟨otherIsInteger, otherValue⟩ := ofNumber_integer_of_lt writtenFits writtenNarrow
  have compared := comparedAs_integers (Int64.ofInt found) (Int64.ofInt written)
  rwa [value, otherValue, ← isInteger, ← otherIsInteger] at compared

theorem comparedAs_of_wide (foundFits : -2 ^ 63 ≤ found) (writtenFits : -2 ^ 63 ≤ written)
    (wide : 2 ^ 63 ≤ found ∨ 2 ^ 63 ≤ written) :
    ComparedAs (ofNumber (.integer found)) (ofNumber (.integer written))
      (Binary64.ofInt found).exactValue (Binary64.ofInt written).exactValue := by
  have isNumber : ∀ integer, (Binary64.ofInt integer).isNaN = false := fun integer =>
    Binary64.isNaN_ofRank _ _
  rcases le_or_gt (2 ^ 63) found with foundWide | foundNarrow
  · rw [ofNumber_integer_of_le foundWide]
    rcases le_or_gt (2 ^ 63) written with writtenWide | writtenNarrow
    · rw [ofNumber_integer_of_le writtenWide]
      exact comparedAs_floats (isNumber found) (isNumber written)
    · obtain ⟨isInteger, value⟩ := ofNumber_integer_of_lt writtenFits writtenNarrow
      have compared := comparedAs_rounded_right (Int64.ofInt written) (isNumber found)
      rwa [value, ← isInteger] at compared
  · have writtenWide := wide.resolve_left (not_le.mpr foundNarrow)
    rw [ofNumber_integer_of_le writtenWide]
    obtain ⟨isInteger, value⟩ := ofNumber_integer_of_lt foundFits foundNarrow
    have compared := comparedAs_rounded_left (Int64.ofInt found) (isNumber written)
    rwa [value, ← isInteger] at compared

/-- Integers that are rounded to different numbers are in the order of these numbers. -/
theorem ComparedAs.of_rounded {first second : Scalar}
    (rounded : ComparedAs first second (Binary64.ofInt found).exactValue
      (Binary64.ofInt written).exactValue)
    (apart : (Binary64.ofInt found).exactValue ≠ (Binary64.ofInt written).exactValue) :
    ComparedAs first second ((found : ℝ) : EReal) ((written : ℝ) : EReal) := by
  refine rounded.congr ?_ ?_
  · rw [EReal.coe_lt_coe_iff, Int.cast_lt]
    constructor
    · intro less
      by_contra notLess
      exact less.not_ge (Binary64.exactValue_ofInt_mono (not_lt.mp notLess))
    · intro less
      exact (Binary64.exactValue_ofInt_mono less.le).lt_of_ne apart
  · rw [EReal.coe_eq_coe_iff, Int.cast_inj]
    exact iff_of_false apart fun same => apart (by rw [same])

end Scalar

namespace Evaluation

theorem verdictOn_comparisonWith {limits : Limits} (positive : 1 ≤ limits.depthLimit)
    (comparison : Comparison) (found written : Int) :
    verdictOn limits (documentWith found) (.comparisonWith comparison written) =
      compareScalars comparison (Scalar.ofNumber (.integer found))
        (Scalar.ofNumber (.integer written)) := by
  have resolved : Path.resolve (documentWith found) "k" = .ok (.number (.integer found)) := by
    cbv
  rw [Expression.comparisonWith, verdictOn_comparison (operand_of_resolve resolved rfl) rfl,
    if_neg (by omega)]

/-- The verdict is the one on the integers if both fit into 64 bits or are rounded to different
numbers, and the one on the rounded numbers if neither fits. -/
theorem integers_compared_in_filters (comparison : Comparison) {found written : Int}
    (foundFits : -2 ^ 63 ≤ found ∧ found < 2 ^ 64)
    (writtenFits : -2 ^ 63 ≤ written ∧ written < 2 ^ 64) :
    ∃ filter document,
      Expression.parse (Utf8.encode (comparisonText comparison written)) = .ok filter ∧
      Json.ofBytes? (Utf8.encode (documentText found)) = some document ∧
      ∀ limits : Limits, 1 ≤ limits.depthLimit →
        ∃ verdict, verdictOn limits document filter = .ok verdict ∧
          (found < 2 ^ 63 ∧ written < 2 ^ 63 ∨
              (Binary64.ofInt found).exactValue ≠ (Binary64.ofInt written).exactValue →
            (verdict = true ↔ comparison.Relates found written)) ∧
          (2 ^ 63 ≤ found → 2 ^ 63 ≤ written →
            (verdict = true ↔ comparison.Relates (Binary64.ofInt found).exactValue
              (Binary64.ofInt written).exactValue)) := by
  refine ⟨.comparisonWith comparison written, documentWith found,
    Expression.parse_comparisonText writtenFits comparison, ofBytes?_documentText foundFits, ?_⟩
  intro limits positive
  rw [verdictOn_comparisonWith positive]
  by_cases narrow : found < 2 ^ 63 ∧ written < 2 ^ 63
  · obtain ⟨verdict, isVerdict, exactly⟩ := Scalar.comparedAs_of_narrow foundFits.1 narrow.1
      writtenFits.1 narrow.2 comparison
    rw [Comparison.relates_intCast] at exactly
    exact ⟨verdict, isVerdict, fun _ => exactly, fun wide => absurd narrow.1 (not_lt.mpr wide)⟩
  · have rounded := Scalar.comparedAs_of_wide foundFits.1 writtenFits.1 (by omega)
    obtain ⟨verdict, isVerdict, asRounded⟩ := rounded comparison
    refine ⟨verdict, isVerdict, fun clear => ?_, fun _ _ => asRounded⟩
    obtain ⟨same, isSame, exactly⟩ := rounded.of_rounded (clear.resolve_left narrow) comparison
    rw [isVerdict] at isSame
    obtain rfl := Except.ok.inj isSame
    rw [exactly, Comparison.relates_intCast]

/-- The greatest integer of 64 bits with sign is told apart from the one before it. -/
theorem greatest_integer_compared :
    ((-2 ^ 63 ≤ (9223372036854775807 : Int) ∧ (9223372036854775807 : Int) < 2 ^ 64) ∧
      (-2 ^ 63 ≤ (9223372036854775806 : Int) ∧ (9223372036854775806 : Int) < 2 ^ 64)) ∧
    ∃ filter document,
      Expression.parse (Utf8.encode (comparisonText .less 9223372036854775807)) = .ok filter ∧
      Json.ofBytes? (Utf8.encode (documentText 9223372036854775806)) = some document ∧
      verdictOn ⟨1, false⟩ document filter = .ok true := by
  refine ⟨by decide, ?_⟩
  obtain ⟨filter, document, isFilter, isDocument, verdicts⟩ :=
    @integers_compared_in_filters .less 9223372036854775806 9223372036854775807 (by decide)
      (by decide)
  obtain ⟨verdict, isVerdict, exactly, -⟩ := verdicts ⟨1, false⟩ (by decide)
  have less : (9223372036854775806 : Int) < 9223372036854775807 := by decide
  have holds : verdict = true := (exactly (Or.inl (by decide))).mpr less
  rw [holds] at isVerdict
  exact ⟨filter, document, isFilter, isDocument, isVerdict⟩

/-- Two different integers beyond 64 bits with sign are equal to a filter. -/
theorem wide_integers_not_told_apart :
    ∃ filter document,
      Expression.parse (Utf8.encode (comparisonText .equal 9223372036854775808)) = .ok filter ∧
      Json.ofBytes? (Utf8.encode (documentText 9223372036854775809)) = some document ∧
      verdictOn ⟨128, false⟩ document filter = .ok true ∧
      (9223372036854775809 : Int) ≠ 9223372036854775808 := by
  refine ⟨_, _, Expression.parse_comparisonText (by decide) .equal,
    ofBytes?_documentText (by decide), ?_, by decide⟩
  rw [verdictOn_comparisonWith (by decide)]
  decide +kernel

end Evaluation

end JsonSieve
