import JsonSieve.Evaluation
import JsonSieve.Proofs.Binary64.Value

/-!
# Comparing numbers

Two integers are compared by their values, and so are two floating point numbers.  An integer is
rounded before it is compared with a floating point number.  This cannot turn the order around,
but it can hide a difference: an integer that is rounded to the other number is taken to be equal
to it, whether it is or not.  In all other cases numbers of both sorts are compared by their
values, in particular if the integer has no more than 53 bits.
-/

namespace JsonSieve

def Comparison.Relates {Value : Type} [Preorder Value] : Comparison → Value → Value → Prop
  | .equal, first, second => first = second
  | .less, first, second => first < second
  | .greaterOrEqual, first, second => first ≥ second

namespace Scalar

noncomputable def exactValue? : Scalar → Option EReal
  | .integer value => some ((value.toInt : ℝ) : EReal)
  | .float value => if value.isNaN then none else some value.exactValue
  | _ => none

/-- Two scalars are compared as these values are: every comparison has a verdict, which is true
exactly if the comparison holds of the values. -/
def ComparedAs (first second : Scalar) (firstValue secondValue : EReal) : Prop :=
  ∀ comparison, ∃ verdict, Evaluation.compareScalars comparison first second = .ok verdict ∧
    (verdict = true ↔ comparison.Relates firstValue secondValue)

/-- An integer is rounded to a floating point number other than itself, with which it is
compared. -/
inductive Blurred : Scalar → Scalar → Prop
  | left {integer : Int64} {number : Binary64}
      (rounds : (Binary64.ofInt integer.toInt).exactValue = number.exactValue)
      (differs : ((integer.toInt : ℝ) : EReal) ≠ number.exactValue) :
      Blurred (.integer integer) (.float number)
  | right {integer : Int64} {number : Binary64}
      (rounds : (Binary64.ofInt integer.toInt).exactValue = number.exactValue)
      (differs : ((integer.toInt : ℝ) : EReal) ≠ number.exactValue) :
      Blurred (.float number) (.integer integer)

variable {first second : Scalar} {firstValue secondValue : EReal}

theorem ComparedAs.of_order {order : Ordering} (number : first.family = second.family)
    (ordered : first.order? second = some order)
    (less : order = .lt ↔ firstValue < secondValue)
    (equal : order = .eq ↔ firstValue = secondValue) :
    ComparedAs first second firstValue secondValue := by
  intro comparison
  refine ⟨comparison.holds order, ?_, ?_⟩
  · rw [Evaluation.compareScalars, if_pos number, Comparison.holdsOf, ordered]
  · cases comparison with
    | equal => cases order <;> simp_all [Comparison.holds, Comparison.Relates]
    | less => cases order <;> simp_all [Comparison.holds, Comparison.Relates]
    | greaterOrEqual =>
        rw [Comparison.Relates, ge_iff_le, ← not_lt, ← less]
        cases order <;> simp [Comparison.holds]

theorem ComparedAs.congr {otherFirst otherSecond : EReal}
    (compared : ComparedAs first second firstValue secondValue)
    (less : firstValue < secondValue ↔ otherFirst < otherSecond)
    (equal : firstValue = secondValue ↔ otherFirst = otherSecond) :
    ComparedAs first second otherFirst otherSecond := by
  intro comparison
  obtain ⟨verdict, isVerdict, relates⟩ := compared comparison
  refine ⟨verdict, isVerdict, relates.trans ?_⟩
  cases comparison with
  | equal => exact equal
  | less => exact less
  | greaterOrEqual =>
      simp only [Comparison.Relates, ge_iff_le, ← not_lt]
      exact not_congr less

theorem ComparedAs.eq_iff_eq {otherFirst otherSecond : EReal}
    (compared : ComparedAs first second firstValue secondValue)
    (others : ComparedAs first second otherFirst otherSecond) :
    firstValue = secondValue ↔ otherFirst = otherSecond := by
  obtain ⟨verdict, isVerdict, relates⟩ := compared .equal
  obtain ⟨other, isOther, otherRelates⟩ := others .equal
  obtain rfl : verdict = other := by
    rw [isVerdict] at isOther
    exact Except.ok.inj isOther
  exact relates.symm.trans otherRelates

theorem comparedAs_integers (integer other : Int64) :
    ComparedAs (.integer integer) (.integer other) ((integer.toInt : ℝ) : EReal)
      ((other.toInt : ℝ) : EReal) := by
  refine .of_order rfl rfl ?_ ?_
  · rw [compare_lt_iff_lt, EReal.coe_lt_coe_iff, Int.cast_lt]
  · rw [compare_eq_iff_eq, EReal.coe_eq_coe_iff, Int.cast_inj]

theorem comparedAs_of_compare? {number other : Binary64} (isNumber : number.isNaN = false)
    (isOther : other.isNaN = false) (sameFamily : first.family = second.family)
    (ordered : first.order? second = number.compare? other) :
    ComparedAs first second number.exactValue other.exactValue := by
  have places : first.order? second = some (compare number.place other.place) := by
    rw [ordered, Binary64.compare?, isNumber, isOther]
    rfl
  have less := Binary64.place_lt_iff isNumber isOther
  have greater := Binary64.place_lt_iff isOther isNumber
  refine .of_order sameFamily places ?_ ?_
  · rw [compare_lt_iff_lt, less]
  · rw [compare_eq_iff_eq]
    constructor
    · intro same
      exact le_antisymm (not_lt.mp (mt greater.mpr (by omega)))
        (not_lt.mp (mt less.mpr (by omega)))
    · intro same
      exact le_antisymm (not_lt.mp (mt greater.mp same.not_gt))
        (not_lt.mp (mt less.mp same.not_lt))

/-- A floating point number lies on the same side of an integer and of what the integer is rounded
to, unless the integer is rounded to this number. -/
theorem same_side_of_ofInt {integer : Int} {number : Binary64}
    (apart : (Binary64.ofInt integer).exactValue = number.exactValue →
      ((integer : ℝ) : EReal) = number.exactValue) :
    ((Binary64.ofInt integer).exactValue < number.exactValue ↔
        ((integer : ℝ) : EReal) < number.exactValue) ∧
      (number.exactValue < (Binary64.ofInt integer).exactValue ↔
        number.exactValue < ((integer : ℝ) : EReal)) ∧
      ((Binary64.ofInt integer).exactValue = number.exactValue ↔
        ((integer : ℝ) : EReal) = number.exactValue) := by
  have same : ((integer : ℝ) : EReal) = number.exactValue →
      (Binary64.ofInt integer).exactValue = number.exactValue := fun equal =>
    le_antisymm (Binary64.ofInt_le equal.le) (Binary64.le_ofInt equal.ge)
  refine ⟨⟨?_, ?_⟩, ⟨?_, ?_⟩, apart, same⟩
  · intro less
    by_contra notLess
    exact less.not_ge (Binary64.le_ofInt (not_lt.mp notLess))
  · intro less
    exact (Binary64.ofInt_le less.le).lt_of_ne fun equal => less.ne (apart equal)
  · intro less
    by_contra notLess
    exact less.not_ge (Binary64.ofInt_le (not_lt.mp notLess))
  · intro less
    exact (Binary64.le_ofInt less.le).lt_of_ne fun equal => less.ne (apart equal.symm).symm

theorem comparedAs_floats {number other : Binary64} (isNumber : number.isNaN = false)
    (isOther : other.isNaN = false) :
    ComparedAs (.float number) (.float other) number.exactValue other.exactValue :=
  comparedAs_of_compare? isNumber isOther rfl rfl

theorem comparedAs_rounded_left (integer : Int64) {number : Binary64}
    (isNumber : number.isNaN = false) :
    ComparedAs (.integer integer) (.float number) (Binary64.ofInt integer.toInt).exactValue
      number.exactValue :=
  comparedAs_of_compare? (Binary64.isNaN_ofRank _ _) isNumber rfl rfl

theorem comparedAs_rounded_right (integer : Int64) {number : Binary64}
    (isNumber : number.isNaN = false) :
    ComparedAs (.float number) (.integer integer) number.exactValue
      (Binary64.ofInt integer.toInt).exactValue :=
  comparedAs_of_compare? isNumber (Binary64.isNaN_ofRank _ _) rfl rfl

theorem exactValue?_float_eq_some_iff {number : Binary64} {value : EReal} :
    (Scalar.float number).exactValue? = some value ↔
      number.isNaN = false ∧ number.exactValue = value := by
  rw [exactValue?]
  cases number.isNaN <;> simp

/-- Numbers are compared by their values, or as if they were equal because rounding hides that they
are not. -/
theorem comparedAs_or_blurred (isFirst : first.exactValue? = some firstValue)
    (isSecond : second.exactValue? = some secondValue) :
    ¬Blurred first second ∧ ComparedAs first second firstValue secondValue ∨
      Blurred first second ∧ firstValue ≠ secondValue ∧
        ComparedAs first second firstValue firstValue := by
  cases first with
  | integer integer =>
      obtain rfl := Option.some.inj isFirst
      cases second with
      | integer other =>
          obtain rfl := Option.some.inj isSecond
          exact Or.inl ⟨nofun, comparedAs_integers integer other⟩
      | float number =>
          obtain ⟨isNumber, rfl⟩ := exactValue?_float_eq_some_iff.mp isSecond
          have rounded := comparedAs_rounded_left integer isNumber
          -- Either rounding reaches the other number from elsewhere, or it keeps to one side of it.
          by_cases blurred : (Binary64.ofInt integer.toInt).exactValue = number.exactValue ∧
              ((integer.toInt : ℝ) : EReal) ≠ number.exactValue
          · refine Or.inr ⟨.left blurred.1 blurred.2, blurred.2, rounded.congr ?_ ?_⟩ <;>
              simp [blurred.1]
          · obtain ⟨less, -, equal⟩ := same_side_of_ofInt (not_and_not_right.mp blurred)
            refine Or.inl ⟨fun isBlurred => ?_, rounded.congr less equal⟩
            cases isBlurred with
            | left rounds differs => exact blurred ⟨rounds, differs⟩
      | _ => cases isSecond
  | float number =>
      obtain ⟨isNumber, rfl⟩ := exactValue?_float_eq_some_iff.mp isFirst
      cases second with
      | integer integer =>
          obtain rfl := Option.some.inj isSecond
          have rounded := comparedAs_rounded_right integer isNumber
          by_cases blurred : (Binary64.ofInt integer.toInt).exactValue = number.exactValue ∧
              ((integer.toInt : ℝ) : EReal) ≠ number.exactValue
          · refine Or.inr ⟨.right blurred.1 blurred.2, blurred.2.symm, rounded.congr ?_ ?_⟩ <;>
              simp [blurred.1]
          · obtain ⟨-, greater, equal⟩ := same_side_of_ofInt (not_and_not_right.mp blurred)
            refine Or.inl ⟨fun isBlurred => ?_,
              rounded.congr greater (eq_comm.trans (equal.trans eq_comm))⟩
            cases isBlurred with
            | right rounds differs => exact blurred ⟨rounds, differs⟩
      | float other =>
          obtain ⟨isOther, rfl⟩ := exactValue?_float_eq_some_iff.mp isSecond
          exact Or.inl ⟨nofun, comparedAs_floats isNumber isOther⟩
      | _ => cases isSecond
  | _ => cases isFirst

theorem not_blurred_of_small
    (small : ∀ integer, first = .integer integer ∨ second = .integer integer →
      integer.toInt.natAbs ≤ 2 ^ 53) : ¬Blurred first second := by
  intro isBlurred
  cases isBlurred with
  | left rounds differs =>
      rw [Binary64.exactValue_ofInt (small _ (Or.inl rfl))] at rounds
      exact differs rounds
  | right rounds differs =>
      rw [Binary64.exactValue_ofInt (small _ (Or.inr rfl))] at rounds
      exact differs rounds

/-- Numbers are compared by their values unless rounding hides that they differ, and then they are
compared as equal numbers are.  Nothing is hidden of integers of up to 53 bits. -/
theorem numbers_compared_by_value_iff {first second : Scalar} {firstValue secondValue : EReal}
    (isFirst : first.exactValue? = some firstValue)
    (isSecond : second.exactValue? = some secondValue) :
    (ComparedAs first second firstValue secondValue ↔ ¬Blurred first second) ∧
    (Blurred first second → ComparedAs first second firstValue firstValue) ∧
    ((∀ integer, first = .integer integer ∨ second = .integer integer →
        integer.toInt.natAbs ≤ 2 ^ 53) → ¬Blurred first second) := by
  refine ⟨?_, ?_, not_blurred_of_small⟩
  · rcases comparedAs_or_blurred isFirst isSecond with
      ⟨clear, compared⟩ | ⟨blurred, differ, asEqual⟩
    · exact ⟨fun _ => clear, fun _ => compared⟩
    · refine ⟨fun compared => ?_, fun clear => absurd blurred clear⟩
      exact absurd ((compared.eq_iff_eq asEqual).mpr rfl) differ
  · intro blurred
    rcases comparedAs_or_blurred isFirst isSecond with ⟨clear, -⟩ | ⟨-, -, asEqual⟩
    · exact absurd blurred clear
    · exact asEqual

def twoToThe53 : Binary64 := Binary64.ofBits 0x4340000000000000

theorem twoToThe53_eq_ofInt : twoToThe53 = Binary64.ofInt 9007199254740992 := by decide +kernel

theorem exactValue_twoToThe53 : twoToThe53.exactValue = ((9007199254740992 : ℝ) : EReal) := by
  rw [twoToThe53_eq_ofInt, Binary64.exactValue_ofInt (by decide)]
  norm_num

theorem toInt_after_twoToThe53 : (9007199254740993 : Int64).toInt = 9007199254740993 := by decide

/-- The integer after two to the power of 53 is rounded to the number before it. -/
theorem blurred_twoToThe53 : Blurred (.integer 9007199254740993) (.float twoToThe53) := by
  have rounds : Binary64.ofInt 9007199254740993 = twoToThe53 := by decide +kernel
  refine .left ?_ ?_
  · rw [toInt_after_twoToThe53, rounds]
  · rw [toInt_after_twoToThe53, exactValue_twoToThe53, ne_eq, EReal.coe_eq_coe_iff]
    norm_num

theorem exactValue?_after_twoToThe53 :
    (Scalar.integer 9007199254740993).exactValue? =
      some ((9007199254740993 : ℝ) : EReal) := by
  rw [exactValue?, toInt_after_twoToThe53]
  norm_num

theorem exactValue?_twoToThe53 :
    (Scalar.float twoToThe53).exactValue? = some ((9007199254740992 : ℝ) : EReal) :=
  exactValue?_float_eq_some_iff.mpr ⟨by decide, exactValue_twoToThe53⟩

theorem numbers_compared_at_twoToThe53 :
    (Scalar.integer 9007199254740993).exactValue? = some ((9007199254740993 : ℝ) : EReal) ∧
      (Scalar.float twoToThe53).exactValue? = some ((9007199254740992 : ℝ) : EReal) ∧
      ¬ComparedAs (.integer 9007199254740993) (.float twoToThe53)
        ((9007199254740993 : ℝ) : EReal) ((9007199254740992 : ℝ) : EReal) := by
  refine ⟨exactValue?_after_twoToThe53, exactValue?_twoToThe53, fun compared => ?_⟩
  have clear := (numbers_compared_by_value_iff exactValue?_after_twoToThe53
    exactValue?_twoToThe53).1.mp compared
  exact clear blurred_twoToThe53

/-- Two integers that are not equal to each other are equal to the same floating point number. -/
theorem equality_of_numbers_not_transitive :
    Evaluation.compareScalars .equal (.integer 9007199254740993) (.float twoToThe53) = .ok true ∧
      Evaluation.compareScalars .equal (.float twoToThe53) (.integer 9007199254740992) =
        .ok true ∧
      Evaluation.compareScalars .equal (.integer 9007199254740993)
        (.integer 9007199254740992) = .ok false ∧
      (Scalar.integer 9007199254740993).exactValue? ≠ (Scalar.float twoToThe53).exactValue? := by
  refine ⟨by decide +kernel, by decide +kernel, by decide, ?_⟩
  rw [exactValue?_after_twoToThe53, exactValue?_twoToThe53, ne_eq, Option.some.injEq,
    EReal.coe_eq_coe_iff]
  norm_num

end Scalar

end JsonSieve
