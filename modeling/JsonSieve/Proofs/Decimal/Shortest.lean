import JsonSieve.Decimal
import JsonSieve.Proofs.Binary64.Rounding
import JsonSieve.Proofs.Json.Numeral

/-!
# Shortest decimals are read back

The decimals of a given number of digits around a magnitude are multiples of one power of ten.  If
this step is finer than half the distance to the neighbours of the magnitude then the nearest
multiple is rounded to the magnitude.  Neighbours differ by at least one part in `2 ^ 53`, and the step of
seventeen digits is at most one part in `10 ^ 16`.  So the search for a shortest decimal succeeds
after at most seventeen digits, and the decimal that it finds is rounded to the magnitude.
-/

namespace JsonSieve

open Binary64

namespace Decimal

/-- What a number of units is multiplied by to count it in steps of a power of ten. -/
def scale (step : Int) : Nat :=
  if 0 ≤ step then 1 else 10 ^ (-step).toNat

/-- What a number of units is divided by to count it in steps of a power of ten. -/
def grid (step : Int) : Nat :=
  if 0 ≤ step then unitsPerOne * 10 ^ step.toNat else unitsPerOne

theorem stepsOfUnits_eq (units : Nat) (step : Int) :
    stepsOfUnits units step = (units * scale step, grid step) := by
  unfold stepsOfUnits scale grid
  split
  · rw [Nat.mul_one, Nat.pow_eq]
  · rw [Nat.pow_eq]

theorem rankOfSteps_eq (count : Nat) (step : Int) :
    rankOfSteps count step = nearestRank (count * grid step) (scale step) := by
  unfold rankOfSteps scale grid
  split
  · rw [Nat.pow_eq, Nat.mul_assoc, Nat.mul_comm unitsPerOne]
  · rw [Nat.pow_eq]

theorem scale_pos (step : Int) : 0 < scale step := by
  unfold scale
  split
  · exact Nat.one_pos
  · exact Nat.pow_pos (by decide)

theorem grid_pos (step : Int) : 0 < grid step := by
  unfold grid
  split
  · exact Nat.mul_pos unitsPerOne_pos (Nat.pow_pos (by decide))
  · exact unitsPerOne_pos

theorem grid_eq (step : Int) : (grid step : ℚ) = unitsPerOne * 10 ^ step * scale step := by
  unfold grid scale
  split
  · next nonnegative =>
      obtain ⟨exponent, rfl⟩ := Int.eq_ofNat_of_zero_le nonnegative
      simp
  · next negative =>
      obtain ⟨exponent, rfl⟩ := Int.exists_eq_neg_ofNat (not_le.mp negative).le
      have power : (10 : ℚ) ^ exponent ≠ 0 := by positivity
      simp [power]

/-- So many steps reach a magnitude if and only if their value does. -/
theorem mul_grid_le_iff {units count : Nat} {step : Int} :
    count * grid step ≤ units * scale step ↔
      (count : ℚ) * 10 ^ step * unitsPerOne ≤ units := by
  have positive : (0 : ℚ) < scale step := Nat.cast_pos.mpr (scale_pos step)
  have reordered : (count : ℚ) * (unitsPerOne * 10 ^ step * scale step) =
      count * 10 ^ step * unitsPerOne * scale step := by ring
  rw [← @Nat.cast_le ℚ, Nat.cast_mul, Nat.cast_mul, grid_eq, reordered,
    mul_le_mul_iff_left₀ positive]

theorem pow_length_le {number : Nat} (positive : 0 < number) :
    10 ^ ((Digits.ofNat number).length - 1) ≤ number := by
  by_cases single : (Digits.ofNat number).length ≤ 1
  · rw [Nat.sub_eq_zero_of_le single]
    exact positive
  · by_contra small
    have shorter := (Nat.length_toDigits_le_iff (by decide) (by omega)).mpr (not_le.mp small)
    rw [Digits.ofNat] at single shorter
    omega

theorem lt_pow_length (number : Nat) : number < 10 ^ (Digits.ofNat number).length :=
  (Nat.length_toDigits_le_iff (by decide) Nat.length_toDigits_pos).mp le_rfl

theorem zpow_natCast_add (exponent : Int) (count : Nat) :
    ((10 ^ count : Nat) : ℚ) * 10 ^ exponent = 10 ^ (exponent + count) := by
  rw [Nat.cast_pow, Nat.cast_ofNat, ← zpow_natCast, ← zpow_add₀ (by norm_num), add_comm]

theorem pow_leadingExponent_le {units : Nat} (positive : 0 < units) :
    (10 : ℚ) ^ leadingExponent units * unitsPerOne ≤ units := by
  have least : grid (-324) ≤ scale (-324) := by decide +kernel
  have counted : 0 < units * scale (-324) / grid (-324) :=
    Nat.div_pos (least.trans (Nat.le_mul_of_pos_left _ positive)) (grid_pos _)
  have reached := (Nat.le_div_iff_mul_le (grid_pos _)).mp (pow_length_le counted)
  rw [mul_grid_le_iff, zpow_natCast_add] at reached
  have length := List.length_pos_iff.mpr (Digits.ofNat_ne_nil (units * scale (-324) / grid (-324)))
  have exponent : leadingExponent units =
      -324 + (((Digits.ofNat (units * scale (-324) / grid (-324))).length - 1 : Nat) : Int) := by
    rw [leadingExponent, stepsOfUnits_eq]
    dsimp only
    omega
  rwa [exponent]

theorem lt_pow_leadingExponent (units : Nat) :
    (units : ℚ) < 10 ^ (leadingExponent units + 1) * unitsPerOne := by
  have beyond := (Nat.div_lt_iff_lt_mul (grid_pos _)).mp
    (lt_pow_length (units * scale (-324) / grid (-324)))
  rw [← not_le, mul_grid_le_iff, zpow_natCast_add, not_le] at beyond
  have exponent : leadingExponent units + 1 =
      -324 + ((Digits.ofNat (units * scale (-324) / grid (-324))).length : Int) := by
    rw [leadingExponent, stepsOfUnits_eq]
    dsimp only
    omega
  rwa [exponent]

/-- Neighbouring magnitudes differ by at least one part in `2 ^ 53`. -/
theorem exists_gap (rank : Nat) :
    ∃ gap, unitsOfRank (rank + 1) = unitsOfRank rank + gap ∧
      unitsOfRank (rank + 1) ≤ 2 ^ 53 * gap := by
  obtain ⟨coarseness, offset, rfl, lower, upper⟩ := exists_block rank
  refine ⟨2 ^ coarseness, ?_, ?_⟩
  · rw [unitsOfRank_succ_block lower upper, unitsOfRank_block lower upper.le]
    ring
  · rw [unitsOfRank_succ_block lower upper]
    exact Nat.mul_le_mul_right _ upper

section Steps

variable {rank : Nat} {step : Int}

/-- A multiple of a step that is at most half a step away from a magnitude is rounded to the
magnitude if the step is less than one part in `10 ^ 16`. -/
theorem rankOfSteps_of_near {count : Nat} (positive : 0 < rank)
    (fine : 10 ^ 16 * grid step ≤ unitsOfRank rank * scale step)
    (notBefore : 2 * (unitsOfRank rank * scale step) ≤ (2 * count + 1) * grid step)
    (notBeyond : 2 * (count * grid step) ≤ 2 * (unitsOfRank rank * scale step) + grid step) :
    rankOfSteps count step = rank := by
  obtain ⟨previous, rfl⟩ : ∃ previous, rank = previous + 1 := ⟨rank - 1, by omega⟩
  -- The step is finer than the distance to either neighbour.
  have finer : ∀ gap, unitsOfRank (previous + 1) ≤ 2 ^ 53 * gap → grid step < gap * scale step := by
    intro gap close
    have scaled := Nat.mul_le_mul_right (scale step) close
    have stepPositive := grid_pos step
    rw [Nat.mul_assoc] at scaled
    omega
  obtain ⟨below, isBelow, closeBelow⟩ := exists_gap previous
  obtain ⟨above, isAbove, closeAbove⟩ := exists_gap (previous + 1)
  have finerBelow := finer below closeBelow
  have finerAbove := finer above (by omega)
  rw [rankOfSteps_eq]
  apply le_antisymm
  · apply nearestRank_le (scale_pos step)
    rw [isAbove, Nat.add_mul, Nat.add_mul]
    omega
  · apply lt_nearestRank (scale_pos step)
    have expand : (2 * count + 1) * grid step = 2 * (count * grid step) + grid step := by ring
    rw [isBelow, Nat.add_mul] at notBefore
    rw [isBelow, Nat.add_mul, Nat.add_mul]
    omega

theorem roundedQuotient_near {numerator denominator : Nat} (positive : 0 < denominator) :
    2 * numerator ≤ (2 * roundedQuotient numerator denominator + 1) * denominator ∧
      2 * (roundedQuotient numerator denominator * denominator) ≤ 2 * numerator + denominator := by
  constructor
  · by_contra beyond
    exact lt_irrefl _ (lt_roundedQuotient positive (not_le.mp beyond))
  · by_contra before
    obtain ⟨previous, rounded⟩ : ∃ previous,
        roundedQuotient numerator denominator = previous + 1 := by
      refine Nat.exists_eq_succ_of_ne_zero fun zero => before ?_
      rw [zero]
      omega
    have expand : (2 * previous + 1) * denominator + denominator =
        2 * ((previous + 1) * denominator) := by ring
    rw [rounded] at before
    have within : roundedQuotient numerator denominator ≤ previous :=
      roundedQuotient_le positive (by omega)
    omega

theorem rankOfSteps_of_multipleReadBack? {count : Nat}
    (found : multipleReadBack? rank step = some count) : rankOfSteps count step = rank := by
  unfold multipleReadBack? at found
  dsimp only at found
  split_ifs at found <;> grind

theorem le_of_multipleReadBack? {count digits : Nat}
    (below : unitsOfRank rank * scale step < 10 ^ digits * grid step)
    (found : multipleReadBack? rank step = some count) : count ≤ 10 ^ digits := by
  have quotient := (Nat.div_lt_iff_lt_mul (grid_pos step)).mpr below
  unfold multipleReadBack? at found
  rw [stepsOfUnits_eq] at found
  simp only [roundedQuotient] at found
  grind

/-- The nearest multiple of a step of less than one part in `10 ^ 16` is read back. -/
theorem isSome_multipleReadBack? (positive : 0 < rank)
    (fine : 10 ^ 16 * grid step ≤ unitsOfRank rank * scale step) :
    (multipleReadBack? rank step).isSome := by
  obtain ⟨notBefore, notBeyond⟩ := roundedQuotient_near (grid_pos step)
  have nearest := rankOfSteps_of_near positive fine notBefore notBeyond
  rw [multipleReadBack?, stepsOfUnits_eq]
  dsimp only
  rw [if_pos nearest]
  rfl

end Steps

theorem unitsOfRank_pos {rank : Nat} (positive : 0 < rank) : 0 < unitsOfRank rank :=
  (Nat.zero_le _).trans_lt (unitsOfRank_strictMono positive)

/-- Seventeen digits are enough to tell a magnitude from its neighbours. -/
theorem isSome_multipleReadBack?_seventeen {rank : Nat} (positive : 0 < rank) :
    (multipleReadBack? rank (leadingExponent (unitsOfRank rank) - (16 : Nat))).isSome := by
  apply isSome_multipleReadBack? positive
  rw [mul_grid_le_iff, zpow_natCast_add, Int.sub_add_cancel]
  exact pow_leadingExponent_le (unitsOfRank_pos positive)

/-- The shortest decimal of a positive magnitude has at most seventeen digits and is rounded to the
magnitude. -/
theorem exists_shortest {rank : Nat} (positive : 0 < rank) :
    ∃ further count : Nat, further < mostDigits ∧ count ≤ 10 ^ (further + 1) ∧
      rankOfSteps count (leadingExponent (unitsOfRank rank) - further) = rank ∧
      shortest rank = ofSteps count (leadingExponent (unitsOfRank rank) - further) := by
  have found : (List.findSome? (fun step => (multipleReadBack? rank step).map (ofSteps · step))
      ((List.range mostDigits).map
        fun further : Nat => leadingExponent (unitsOfRank rank) - further)).isSome := by
    rw [List.findSome?_isSome_iff]
    refine ⟨leadingExponent (unitsOfRank rank) - (16 : Nat),
      List.mem_map.mpr ⟨16, List.mem_range.mpr (by decide), rfl⟩, ?_⟩
    rw [Option.isSome_map]
    exact isSome_multipleReadBack?_seventeen positive
  obtain ⟨decimal, isFound⟩ := Option.isSome_iff_exists.mp found
  obtain ⟨step, isStep, isDecimal⟩ := List.exists_of_findSome?_eq_some isFound
  obtain ⟨further, few, rfl⟩ := List.mem_map.mp isStep
  obtain ⟨count, readBack, rfl⟩ := Option.map_eq_some_iff.mp isDecimal
  refine ⟨further, count, List.mem_range.mp few, ?_, rankOfSteps_of_multipleReadBack? readBack, ?_⟩
  · refine le_of_multipleReadBack? ?_ readBack
    have exponent : leadingExponent (unitsOfRank rank) - further + ((further + 1 : Nat) : Int) =
        leadingExponent (unitsOfRank rank) + 1 := by omega
    rw [← not_le, mul_grid_le_iff, zpow_natCast_add, exponent, not_le]
    exact lt_pow_leadingExponent (unitsOfRank rank)
  · rw [shortest, isFound, Option.getD_some]

/-- A decimal that can be written out: its digits have no leading zeros, and there are at most
seventeen of them. -/
structure Proper (decimal : Decimal) : Prop where
  nonempty : decimal.digits ≠ []
  digital : ∀ digit ∈ decimal.digits, digit.isDigit
  head_ne_zero : decimal.digits.head? ≠ some '0'
  short : decimal.digits.length ≤ mostDigits

/-- A decimal of at most fifteen digits, at least `1e-8` and below `1e15`. -/
structure Short (decimal : Decimal) : Prop where
  few : decimal.digits.length ≤ 15
  least : -8 ≤ decimal.exponent
  greatest : decimal.exponent ≤ 14

def value (decimal : Decimal) : ℚ :=
  Digits.toNat decimal.digits * 10 ^ (decimal.exponent + 1 - decimal.digits.length)

theorem exists_zeros (count : Nat) (step : Int) :
    ∃ zeros, Digits.ofNat count = (ofSteps count step).digits ++ List.replicate zeros '0' := by
  have closing : (Digits.ofNat count).reverse.takeWhile (· = '0') =
      List.replicate ((Digits.ofNat count).reverse.takeWhile (· = '0')).length '0' := by
    refine List.eq_replicate_length.mpr fun digit member => ?_
    simpa using List.all_eq_true.mp List.all_takeWhile digit member
  refine ⟨((Digits.ofNat count).reverse.takeWhile (· = '0')).length, ?_⟩
  have split := congrArg List.reverse
    (List.takeWhile_append_dropWhile (p := (· = '0')) (l := (Digits.ofNat count).reverse))
  rw [List.reverse_append, closing, List.reverse_replicate, List.reverse_reverse] at split
  exact split.symm

theorem toNat_append_replicate (digits : List Char) (zeros : Nat) :
    Digits.toNat (digits ++ List.replicate zeros '0') = Digits.toNat digits * 10 ^ zeros := by
  induction zeros with
  | zero => simp
  | succ zeros ih =>
      have zero : Digits.value '0' = 0 := by decide
      rw [List.replicate_succ', ← List.append_assoc, Digits.toNat, List.foldl_append,
        ← Digits.toNat, ih, List.foldl_cons, List.foldl_nil, zero, pow_succ]
      ring

theorem toNat_of_isDigit {digit : Char} (isDigit : digit.isDigit) :
    '0'.toNat ≤ digit.toNat ∧ digit.toNat ≤ '0'.toNat + 9 := by
  simp only [Char.isDigit, Bool.and_eq_true, decide_eq_true_eq, UInt32.le_iff_toNat_le] at isDigit
  have nine : '9'.val.toNat = '0'.toNat + 9 := rfl
  exact ⟨isDigit.1, nine ▸ isDigit.2⟩

theorem value_le_nine {digit : Char} (isDigit : digit.isDigit) : Digits.value digit ≤ 9 := by
  have range := toNat_of_isDigit isDigit
  rw [Digits.value]
  omega

theorem value_pos {digit : Char} (isDigit : digit.isDigit) (nonzero : digit ≠ '0') :
    0 < Digits.value digit := by
  have range := toNat_of_isDigit isDigit
  have differs : digit.toNat ≠ '0'.toNat := by
    intro same
    exact nonzero (by rw [← digit.ofNat_toNat, same]; rfl)
  rw [Digits.value]
  omega

theorem toNat_lt_pow {digits : List Char} (digital : ∀ digit ∈ digits, digit.isDigit) :
    Digits.toNat digits < 10 ^ digits.length := by
  induction digits using List.reverseRecOn with
  | nil => exact Nat.one_pos
  | append_singleton digits digit ih =>
      have shorter := ih fun other member => digital other (List.mem_append_left _ member)
      have small := value_le_nine (digital digit (by simp))
      rw [Digits.toNat, List.foldl_append, ← Digits.toNat, List.foldl_cons, List.foldl_nil,
        List.length_append, List.length_singleton, pow_succ]
      omega

theorem toNat_pos {decimal : Decimal} (proper : decimal.Proper) :
    0 < Digits.toNat decimal.digits := by
  obtain ⟨first, others, digits⟩ := List.exists_cons_of_ne_nil proper.nonempty
  have nonzero : first ≠ '0' := by
    rintro rfl
    exact proper.head_ne_zero (by rw [digits]; rfl)
  have positive := value_pos (proper.digital first (by simp [digits])) nonzero
  rw [digits, Digits.toNat, List.foldl_cons]
  exact Nat.lt_of_lt_of_le (by omega) (Json.Numeral.le_foldl_digits others _)

variable {count : Nat} {step : Int}

theorem value_ofSteps : (ofSteps count step).value = count * 10 ^ step := by
  obtain ⟨zeros, split⟩ := exists_zeros count step
  have number : count = Digits.toNat (ofSteps count step).digits * 10 ^ zeros := by
    rw [← toNat_append_replicate, ← split, Digits.toNat_ofNat]
  have length := congrArg List.length split
  rw [List.length_append, List.length_replicate] at length
  have exponent : (ofSteps count step).exponent + 1 - (ofSteps count step).digits.length =
      step + zeros := by
    rw [ofSteps] at length ⊢
    dsimp only at length ⊢
    omega
  rw [value, exponent, ← zpow_natCast_add]
  conv_rhs => rw [number]
  push_cast
  ring

theorem proper_ofSteps (positive : 0 < count) (few : count ≤ 10 ^ mostDigits) :
    (ofSteps count step).Proper := by
  obtain ⟨zeros, split⟩ := exists_zeros count step
  have head := Digits.head_ofNat_ne_zero positive
  have nonempty : (ofSteps count step).digits ≠ [] := by
    intro empty
    rw [empty, List.nil_append] at split
    cases zeros with
    | zero => exact Digits.ofNat_ne_nil count split
    | succ zeros =>
        rw [split] at head
        exact head rfl
  refine ⟨nonempty, ?_, ?_, ?_⟩
  · intro digit member
    have written : digit ∈ Digits.ofNat count := by
      rw [split]
      exact List.mem_append_left _ member
    exact Digits.isDigit_of_mem_ofNat written
  · rwa [split, List.head?_append_of_ne_nil _ nonempty] at head
  · rcases few.eq_or_lt with rfl | few
    · exact (by decide : (['1'] : List Char).length ≤ mostDigits)
    · have length := congrArg List.length split
      rw [List.length_append] at length
      have short : (Digits.ofNat count).length ≤ mostDigits :=
        (Nat.length_toDigits_le_iff (by decide) (by decide)).mpr few
      omega

section Magnitudes

variable {rank : Nat} (positive : 0 < rank)
include positive

theorem proper_shortest : (shortest rank).Proper := by
  obtain ⟨further, count, few, within, readBack, isShortest⟩ := exists_shortest positive
  rw [isShortest]
  apply proper_ofSteps
  · refine Nat.pos_of_ne_zero fun zero => positive.ne ?_
    rw [rankOfSteps_eq, zero, Nat.zero_mul] at readBack
    rw [← readBack]
    exact (nearestRank_units (scale_pos _) (by simp [unitsOfRank])).symm
  · exact within.trans (Nat.pow_le_pow_right (by decide) few)

/-- A quotient with the value of the shortest decimal is rounded to the magnitude. -/
theorem nearestRank_value_shortest {numerator denominator : Nat} (nonzero : 0 < denominator)
    (quotient : (numerator : ℚ) = (shortest rank).value * unitsPerOne * denominator) :
    nearestRank numerator denominator = rank := by
  obtain ⟨further, count, -, -, readBack, isShortest⟩ := exists_shortest positive
  rw [rankOfSteps_eq] at readBack
  conv_rhs => rw [← readBack]
  refine nearestRank_congr nonzero (scale_pos _) ?_
  rw [isShortest, value_ofSteps] at quotient
  apply @Nat.cast_injective ℚ
  push_cast
  rw [quotient, grid_eq]
  ring

/-- The value of the shortest decimal is not beyond the middle between the magnitude and the next
one. -/
theorem value_shortest_le :
    (shortest rank).value * unitsPerOne * 2 ≤ unitsOfRank rank + unitsOfRank (rank + 1) := by
  obtain ⟨further, count, -, -, readBack, isShortest⟩ := exists_shortest positive
  have notBeyond : 2 * count * grid (leadingExponent (unitsOfRank rank) - further) ≤
      (unitsOfRank rank + unitsOfRank (rank + 1)) *
        scale (leadingExponent (unitsOfRank rank) - further) := by
    by_contra beyond
    rw [rankOfSteps_eq] at readBack
    refine (lt_nearestRank (scale_pos _) ?_).ne' readBack
    rw [← Nat.mul_assoc]
    exact not_le.mp beyond
  rw [mul_grid_le_iff] at notBeyond
  rw [isShortest, value_ofSteps]
  push_cast at notBeyond
  linarith

theorem le_exponent_shortest : -340 ≤ (shortest rank).exponent := by
  obtain ⟨further, count, few, -, -, isShortest⟩ := exists_shortest positive
  have length := List.length_pos_iff.mpr (Digits.ofNat_ne_nil count)
  have leading : -324 ≤ leadingExponent (unitsOfRank rank) := by
    have digits := List.length_pos_iff.mpr
      (Digits.ofNat_ne_nil (unitsOfRank rank * scale (-324) / grid (-324)))
    rw [leadingExponent, stepsOfUnits_eq]
    dsimp only
    omega
  rw [mostDigits] at few
  rw [isShortest, ofSteps]
  dsimp only
  omega

theorem exponent_shortest_lt (finite : rank < infinityRank) :
    (shortest rank).exponent + 1 - (shortest rank).digits.length < 309 := by
  have digits : (1 : ℚ) ≤ Digits.toNat (shortest rank).digits := by
    exact_mod_cast toNat_pos (proper_shortest positive)
  have sum : unitsOfRank rank + unitsOfRank (rank + 1) < 10 ^ 309 * unitsPerOne * 2 := by
    have top :
        unitsOfRank infinityRank + unitsOfRank infinityRank < 10 ^ 309 * unitsPerOne * 2 := by
      decide +kernel
    have below := unitsOfRank_strictMono.monotone finite
    have before := unitsOfRank_strictMono.monotone finite.le
    exact (Nat.add_le_add before below).trans_lt top
  have power : (10 : ℚ) ^ ((shortest rank).exponent + 1 - (shortest rank).digits.length) <
      10 ^ (309 : Int) := by
    have positivePower : (0 : ℚ) < 10 ^ ((shortest rank).exponent + 1 -
      (shortest rank).digits.length) := by positivity
    have positiveUnit : (0 : ℚ) < unitsPerOne * 2 := by
      exact_mod_cast Nat.mul_pos unitsPerOne_pos Nat.two_pos
    have beyond : (unitsOfRank rank : ℚ) + unitsOfRank (rank + 1) <
        10 ^ (309 : Int) * (unitsPerOne * 2) := by
      rw [zpow_ofNat, ← mul_assoc]
      exact_mod_cast sum
    refine lt_of_mul_lt_mul_right (lt_of_le_of_lt ?_ beyond) positiveUnit.le
    refine le_trans ?_ (value_shortest_le positive)
    rw [value, mul_assoc _ (unitsPerOne : ℚ)]
    exact mul_le_mul_of_nonneg_right (le_mul_of_one_le_left positivePower.le digits)
      positiveUnit.le
  exact (zpow_lt_zpow_iff_right₀ (by norm_num)).mp power

end Magnitudes

end Decimal

end JsonSieve
