import JsonSieve.Proofs.Scalar.Numbers
import JsonSieve.Proofs.Text.Utf8

/-!
# The order within a family

Scalars of different families are not compared at all.  Within a family the comparisons are those of
a linear order, once what is no number is left out: of two scalars one is less than the other or
they are equal, never both, and less is transitive.

Of numbers this does not go without saying, since two integers are compared exactly, while an
integer is rounded before it is compared with a floating point number.  A number has a place
among the floating point numbers, which for an integer is that of the number it is rounded to.
Numbers are compared by their places unless both are integers; and the places of integers in order
are in order, though they may be the same.
-/

namespace JsonSieve

namespace Scalar

def isNaN : Scalar → Bool
  | .float value => value.isNaN
  | _ => false

def Less (first second : Scalar) : Prop :=
  Evaluation.compareScalars .less first second = .ok true

def Equal (first second : Scalar) : Prop :=
  Evaluation.compareScalars .equal first second = .ok true

variable {first second third : Scalar}

theorem family_eq_of_order? {order : Ordering} (ordered : first.order? second = some order) :
    first.family = second.family := by
  cases first <;> cases second <;> first | rfl | cases ordered

theorem compareScalars_of_order? {order : Ordering} (ordered : first.order? second = some order)
    (comparison : Comparison) :
    Evaluation.compareScalars comparison first second = .ok (comparison.holds order) := by
  rw [Evaluation.compareScalars, if_pos (family_eq_of_order? ordered), Comparison.holdsOf, ordered]

theorem compareScalars_eq_ok_true_iff {comparison : Comparison} :
    Evaluation.compareScalars comparison first second = .ok true ↔
      ∃ order, first.order? second = some order ∧ comparison.holds order = true := by
  constructor
  · intro holds
    rw [Evaluation.compareScalars] at holds
    split at holds
    · have holds := Except.ok.inj holds
      rw [Comparison.holdsOf] at holds
      split at holds
      · next order ordered => exact ⟨order, ordered, holds⟩
      · cases holds
    · cases holds
  · rintro ⟨order, ordered, holds⟩
    rw [compareScalars_of_order? ordered, holds]

theorem less_iff : Less first second ↔ first.order? second = some .lt := by
  rw [Less, compareScalars_eq_ok_true_iff]
  constructor
  · rintro ⟨order, ordered, holds⟩
    cases order <;> first | exact ordered | cases holds
  · exact fun ordered => ⟨.lt, ordered, rfl⟩

theorem equal_iff : Equal first second ↔ first.order? second = some .eq := by
  rw [Equal, compareScalars_eq_ok_true_iff]
  constructor
  · rintro ⟨order, ordered, holds⟩
    cases order <;> first | exact ordered | cases holds
  · exact fun ordered => ⟨.eq, ordered, rfl⟩

theorem compare?_of_isNumber {number other : Binary64} (isNumber : number.isNaN = false)
    (isOther : other.isNaN = false) :
    number.compare? other = some (compare number.place other.place) := by
  rw [Binary64.compare?, isNumber, isOther]
  rfl

theorem order?_swap (first second : Scalar) :
    second.order? first = (first.order? second).map Ordering.swap := by
  have floats : ∀ number other : Binary64,
      other.compare? number = (number.compare? other).map Ordering.swap := by
    intro number other
    rw [Binary64.compare?, Binary64.compare?, Bool.or_comm]
    split
    · rfl
    · exact congrArg some Std.OrientedCmp.eq_swap
  cases first <;> cases second <;>
    first
    | rfl
    | exact floats _ _
    | exact congrArg some Std.OrientedCmp.eq_swap

/-- The place of a number among the floating point numbers.  An integer has the place of the number
that it is rounded to. -/
def place? : Scalar → Option Int
  | .integer value => some (Binary64.ofInt value.toInt).place
  | .float value => if value.isNaN then none else some value.place
  | _ => none

theorem isNaN_ofInt (integer : Int) : (Binary64.ofInt integer).isNaN = false :=
  Binary64.isNaN_ofRank _ _

theorem place?_float_eq_some_iff {number : Binary64} {place : Int} :
    (Scalar.float number).place? = some place ↔ number.isNaN = false ∧ number.place = place := by
  rw [place?]
  cases number.isNaN <;> simp

theorem exists_place? (isNumber : first.family = .number) (notNaN : first.isNaN = false) :
    ∃ place, first.place? = some place := by
  cases first with
  | integer value => exact ⟨_, rfl⟩
  | float value => exact ⟨_, place?_float_eq_some_iff.mpr ⟨notNaN, rfl⟩⟩
  | _ => cases isNumber

theorem place_ofInt_mono {integer other : Int} (le : integer ≤ other) :
    (Binary64.ofInt integer).place ≤ (Binary64.ofInt other).place := by
  by_contra greater
  have reversed := (Binary64.place_lt_iff (isNaN_ofInt other) (isNaN_ofInt integer)).mp
    (not_le.mp greater)
  exact reversed.not_ge (Binary64.exactValue_ofInt_mono le)

/-- Numbers are compared by their places, unless both are integers. -/
theorem order?_of_places {place other : Int} (isFirst : first.place? = some place)
    (isSecond : second.place? = some other) :
    first.order? second = some (compare place other) ∨
      ∃ integer otherInteger, first = .integer integer ∧ second = .integer otherInteger := by
  cases first with
  | integer integer =>
      obtain rfl := Option.some.inj isFirst
      cases second with
      | integer otherInteger => exact Or.inr ⟨integer, otherInteger, rfl, rfl⟩
      | float number =>
          obtain ⟨isNumber, rfl⟩ := place?_float_eq_some_iff.mp isSecond
          exact Or.inl (compare?_of_isNumber (isNaN_ofInt _) isNumber)
      | _ => cases isSecond
  | float number =>
      obtain ⟨isNumber, rfl⟩ := place?_float_eq_some_iff.mp isFirst
      cases second with
      | integer otherInteger =>
          obtain rfl := Option.some.inj isSecond
          exact Or.inl (compare?_of_isNumber isNumber (isNaN_ofInt _))
      | float otherNumber =>
          obtain ⟨isOther, rfl⟩ := place?_float_eq_some_iff.mp isSecond
          exact Or.inl (compare?_of_isNumber isNumber isOther)
      | _ => cases isSecond
  | _ => cases isFirst

/-- Of two numbers in order the places are in order, and different ones unless both numbers are
integers. -/
theorem places_of_order?_eq_lt {place other : Int} (isFirst : first.place? = some place)
    (isSecond : second.place? = some other) (less : first.order? second = some .lt) :
    place < other ∨ place ≤ other ∧
      ∃ integer otherInteger, first = .integer integer ∧ second = .integer otherInteger ∧
        integer.toInt < otherInteger.toInt := by
  rcases order?_of_places isFirst isSecond with ordered | ⟨integer, otherInteger, rfl, rfl⟩
  · rw [less, Option.some.injEq] at ordered
    exact Or.inl (compare_lt_iff_lt.mp ordered.symm)
  · have lessInteger : integer.toInt < otherInteger.toInt :=
      compare_lt_iff_lt.mp (Option.some.inj less)
    obtain rfl := Option.some.inj isFirst
    obtain rfl := Option.some.inj isSecond
    exact Or.inr ⟨place_ofInt_mono lessInteger.le, integer, otherInteger, rfl, rfl, lessInteger⟩

theorem order?_eq_lt_of_place_lt {place other : Int} (isFirst : first.place? = some place)
    (isSecond : second.place? = some other) (less : place < other) :
    first.order? second = some .lt := by
  rcases order?_of_places isFirst isSecond with ordered | ⟨integer, otherInteger, rfl, rfl⟩
  · rw [ordered, compare_lt_iff_lt.mpr less]
  · obtain rfl := Option.some.inj isFirst
    obtain rfl := Option.some.inj isSecond
    have lessInteger : integer.toInt < otherInteger.toInt := by
      by_contra notLess
      exact less.not_ge (place_ofInt_mono (not_lt.mp notLess))
    exact congrArg some (compare_lt_iff_lt.mpr lessInteger)

/-- Scalars of one family have an order unless one of them is no number. -/
theorem exists_order? (sameFamily : first.family = second.family) (isFirst : first.isNaN = false)
    (isSecond : second.isNaN = false) : ∃ order, first.order? second = some order := by
  by_cases isNumber : first.family = .number
  · obtain ⟨place, firstPlace⟩ := exists_place? isNumber isFirst
    obtain ⟨other, secondPlace⟩ := exists_place? (sameFamily ▸ isNumber) isSecond
    rcases order?_of_places firstPlace secondPlace with ordered | ⟨integer, other, rfl, rfl⟩
    · exact ⟨_, ordered⟩
    · exact ⟨_, rfl⟩
  · cases first <;> cases second <;>
      first
      | exact absurd rfl isNumber
      | exact ⟨_, rfl⟩
      | cases sameFamily

theorem order?_eq_none_of_isNaN (noNumber : first.isNaN = true ∨ second.isNaN = true) :
    first.order? second = none := by
  have floats : ∀ number other : Binary64, number.isNaN = true ∨ other.isNaN = true →
      number.compare? other = none := by
    intro number other noNumber
    rw [Binary64.compare?, if_pos (by simpa using noNumber)]
  have isNumber : ∀ {value : Int64} {statement : Prop},
      (integer value).isNaN = true → statement :=
    fun impossible => absurd impossible Bool.false_ne_true
  cases first with
  | float number =>
      cases second with
      | float other => exact floats number other noNumber
      | integer integer => exact floats number _ (noNumber.imp_right isNumber)
      | _ => rfl
  | integer integer =>
      cases second with
      | float other => exact floats _ other (noNumber.imp_left isNumber)
      | integer other => exact absurd noNumber (by simp [isNaN])
      | _ => rfl
  | _ => cases second <;> first | rfl | exact absurd noNumber (by simp [isNaN])

theorem isNaN_eq_false_of_order? {order : Ordering} (ordered : first.order? second = some order) :
    first.isNaN = false ∧ second.isNaN = false := by
  by_contra noNumber
  rw [← Bool.not_eq_true, ← Bool.not_eq_true, ← not_or, not_not] at noNumber
  rw [order?_eq_none_of_isNaN noNumber] at ordered
  cases ordered

theorem order?_lt_trans_of_number (isNumber : first.family = .number)
    (before : first.order? second = some .lt) (after : second.order? third = some .lt) :
    first.order? third = some .lt := by
  have isMiddle : second.family = .number := (family_eq_of_order? before).symm.trans isNumber
  have isOther : third.family = .number := (family_eq_of_order? after).symm.trans isMiddle
  obtain ⟨firstNumber, secondNumber⟩ := isNaN_eq_false_of_order? before
  obtain ⟨place, firstPlace⟩ := exists_place? isNumber firstNumber
  obtain ⟨middle, secondPlace⟩ := exists_place? isMiddle secondNumber
  obtain ⟨other, thirdPlace⟩ := exists_place? isOther (isNaN_eq_false_of_order? after).2
  rcases places_of_order?_eq_lt firstPlace secondPlace before with
    less | ⟨le, integer, middleInteger, rfl, rfl, lessInteger⟩
  · refine order?_eq_lt_of_place_lt firstPlace thirdPlace (less.trans_le ?_)
    rcases places_of_order?_eq_lt secondPlace thirdPlace after with lessAfter | ⟨leAfter, -⟩
    · exact lessAfter.le
    · exact leAfter
  · rcases places_of_order?_eq_lt secondPlace thirdPlace after with
      lessAfter | ⟨-, _, otherInteger, same, rfl, lessAfter⟩
    · exact order?_eq_lt_of_place_lt firstPlace thirdPlace (le.trans_lt lessAfter)
    · -- Three integers are compared exactly.
      obtain rfl := Scalar.integer.inj same
      exact congrArg some (compare_lt_iff_lt.mpr (lessInteger.trans lessAfter))

theorem order?_lt_trans (before : first.order? second = some .lt)
    (after : second.order? third = some .lt) : first.order? third = some .lt := by
  by_cases isNumber : first.family = .number
  · exact order?_lt_trans_of_number isNumber before after
  have sameFamily := family_eq_of_order? before
  have furtherFamily := family_eq_of_order? after
  cases first with
  | string text =>
      cases second with
      | string middle =>
          cases third with
          | string other =>
              exact congrArg some
                (Std.TransCmp.lt_trans (Option.some.inj before) (Option.some.inj after))
          | _ => cases furtherFamily
      | _ => cases sameFamily
  | boolean value =>
      cases second with
      | boolean middle =>
          cases third with
          | boolean other =>
              exact congrArg some
                (Std.TransCmp.lt_trans (Option.some.inj before) (Option.some.inj after))
          | _ => cases furtherFamily
      | _ => cases sameFamily
  | null =>
      cases second with
      | null => cases before
      | _ => cases sameFamily
  | _ => exact absurd rfl isNumber

theorem exists_exactValue? (isNumber : first.family = .number) (notNaN : first.isNaN = false) :
    ∃ value, first.exactValue? = some value := by
  cases first with
  | integer integer => exact ⟨_, rfl⟩
  | float number => exact ⟨_, exactValue?_float_eq_some_iff.mpr ⟨notNaN, rfl⟩⟩
  | _ => cases isNumber

/-- What is found to be less has a smaller value: rounding can make numbers equal but does not turn
them around. -/
theorem exactValue_lt_of_less {firstValue secondValue : EReal}
    (isFirst : first.exactValue? = some firstValue)
    (isSecond : second.exactValue? = some secondValue) (less : Less first second) :
    firstValue < secondValue := by
  have relates : ∀ {value other : EReal}, ComparedAs first second value other → value < other := by
    intro value other compared
    obtain ⟨verdict, isVerdict, relates⟩ := compared .less
    rw [Less, isVerdict] at less
    exact relates.mp (Except.ok.inj less)
  rcases comparedAs_or_blurred isFirst isSecond with ⟨-, compared⟩ | ⟨-, -, asEqual⟩
  · exact relates compared
  · exact absurd (relates asEqual) (lt_irrefl firstValue)

def ExactlyOne (first second third : Prop) : Prop :=
  first ∧ ¬second ∧ ¬third ∨ ¬first ∧ second ∧ ¬third ∨ ¬first ∧ ¬second ∧ third

theorem not_less_self (scalar : Scalar) : ¬Less scalar scalar := by
  rw [less_iff]
  intro less
  have swapped := order?_swap scalar scalar
  rw [less] at swapped
  cases swapped

theorem equal_self {scalar : Scalar} (isNumber : scalar.isNaN = false) : Equal scalar scalar := by
  obtain ⟨order, ordered⟩ := exists_order? rfl isNumber isNumber
  have swapped := order?_swap scalar scalar
  rw [ordered] at swapped
  rw [equal_iff, ordered]
  cases order with
  | eq => rfl
  | _ => cases swapped

theorem exactlyOne_of_order? {order : Ordering} (ordered : first.order? second = some order) :
    ExactlyOne (Less first second) (Equal first second) (Less second first) := by
  rw [ExactlyOne, less_iff, equal_iff, less_iff, order?_swap first second, ordered]
  cases order <;> simp

/-- Numbers, texts and truth values are greater or equal if they are not less. -/
theorem compareScalars_greaterOrEqual (sameFamily : first.family = second.family)
    (isFirst : first.isNaN = false) (isSecond : second.isNaN = false) :
    Evaluation.compareScalars .greaterOrEqual first second =
      (Evaluation.compareScalars .less first second).map (fun verdict => !verdict) := by
  obtain ⟨order, ordered⟩ := exists_order? sameFamily isFirst isSecond
  rw [compareScalars_of_order? ordered, compareScalars_of_order? ordered]
  cases order <;> rfl

/-- Comparisons put each family of scalars into a linear order, with integers and floating point
numbers in any mixture, and scalars of different families into none. -/
theorem families_are_linearly_ordered :
    (∀ comparison first second,
      (first.family ≠ second.family →
        Evaluation.compareScalars comparison first second =
          .error (.mismatch comparison first.kind second.kind)) ∧
      (first.family = second.family →
        ∃ verdict, Evaluation.compareScalars comparison first second = .ok verdict)) ∧
    (∀ first second, first.family = second.family → first.isNaN = false → second.isNaN = false →
      ExactlyOne (Less first second) (Equal first second) (Less second first) ∧
      Evaluation.compareScalars .greaterOrEqual first second =
        (Evaluation.compareScalars .less first second).map (fun verdict => !verdict)) ∧
    (∀ scalar, ¬Less scalar scalar) ∧
    (∀ first second third, Less first second → Less second third → Less first third) ∧
    (∀ first second, first.family = .number → Less first second →
      ∃ firstValue secondValue, first.exactValue? = some firstValue ∧
        second.exactValue? = some secondValue ∧ firstValue < secondValue) ∧
    (∀ first second,
      (Less (.string first) (.string second) ↔ Utf8.encode first < Utf8.encode second) ∧
      (Equal (.string first) (.string second) ↔ Utf8.encode first = Utf8.encode second)) ∧
    ∀ comparison first second, first.family = .number → second.family = .number →
      first.isNaN = true ∨ second.isNaN = true →
      Evaluation.compareScalars comparison first second = .ok false := by
  refine ⟨fun comparison first second => ⟨fun different => if_neg different,
      fun same => ⟨_, if_pos same⟩⟩, ?_, not_less_self, ?_, ?_, ?_, ?_⟩
  · intro first second same isFirst isSecond
    obtain ⟨order, ordered⟩ := exists_order? same isFirst isSecond
    exact ⟨exactlyOne_of_order? ordered, compareScalars_greaterOrEqual same isFirst isSecond⟩
  · intro first second third before after
    exact less_iff.mpr (order?_lt_trans (less_iff.mp before) (less_iff.mp after))
  · intro first second isNumber less
    have ordered := less_iff.mp less
    obtain ⟨firstNumber, secondNumber⟩ := isNaN_eq_false_of_order? ordered
    obtain ⟨firstValue, isFirst⟩ := exists_exactValue? isNumber firstNumber
    obtain ⟨secondValue, isSecond⟩ :=
      exists_exactValue? ((family_eq_of_order? ordered).symm.trans isNumber) secondNumber
    exact ⟨firstValue, secondValue, isFirst, isSecond,
      exactValue_lt_of_less isFirst isSecond less⟩
  · intro first second
    exact ⟨less_iff.trans (Option.some_inj.trans Utf8.compareTexts_eq_lt_iff),
      equal_iff.trans (Option.some_inj.trans Utf8.compareTexts_eq_eq_iff)⟩
  · intro comparison first second isFirst isSecond noNumber
    rw [Evaluation.compareScalars, if_pos (isFirst.trans isSecond.symm), Comparison.holdsOf,
      order?_eq_none_of_isNaN noNumber]

end Scalar

end JsonSieve
