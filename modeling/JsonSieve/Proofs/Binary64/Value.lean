import JsonSieve.Proofs.Binary64.Rounding

/-!
# The values of binary64 numbers

A floating point number has a place among the floating point numbers and a value on the extended
real line.  Both are ordered alike, so that a comparison of places is one of values.

An integer is rounded to a number of its own value, if there is one, and otherwise to a
neighbour of its value.  In either case no floating point number lies between the integer and the
number that it is rounded to.  The order of integers is kept, and integers of up to 53 bits are not
changed at all.
-/

namespace JsonSieve.Binary64

/-- The magnitude of a rank on the extended real line. -/
noncomputable def magnitude (rank : Nat) : EReal :=
  if rank < infinityRank then ((unitsOfRank rank / unitsPerOne : ℝ) : EReal) else ⊤

noncomputable def exactValue (number : Binary64) : EReal :=
  if number.negative then -magnitude number.rank else magnitude number.rank

noncomputable def valueAt (place : Int) : EReal :=
  if place < 0 then -magnitude place.natAbs else magnitude place.natAbs

theorem unitsPerOne_cast_pos : (0 : ℝ) < unitsPerOne := Nat.cast_pos.mpr unitsPerOne_pos

theorem magnitude_zero : magnitude 0 = 0 := by
  have least : unitsOfRank 0 = 0 := by decide
  rw [magnitude, if_pos (by decide), least]
  simp

theorem magnitude_lt_magnitude {rank other : Nat} (less : rank < other)
    (within : other ≤ infinityRank) : magnitude rank < magnitude other := by
  rw [magnitude, if_pos (less.trans_le within), magnitude]
  split
  · rw [EReal.coe_lt_coe_iff]
    exact div_lt_div_of_pos_right (Nat.cast_lt.mpr (unitsOfRank_strictMono less))
      unitsPerOne_cast_pos
  · exact EReal.coe_lt_top _

theorem magnitude_mono {rank other : Nat} (le : rank ≤ other) :
    magnitude rank ≤ magnitude other := by
  by_cases within : other ≤ infinityRank
  · rcases le.eq_or_lt with rfl | less
    · exact le_rfl
    · exact (magnitude_lt_magnitude less within).le
  · have infinite : magnitude other = ⊤ := if_neg (by omega)
    rw [infinite]
    exact le_top

theorem magnitude_nonneg (rank : Nat) : 0 ≤ magnitude rank := by
  rw [← magnitude_zero]
  exact magnitude_mono (Nat.zero_le rank)

theorem exactValue_eq_valueAt (number : Binary64) :
    number.exactValue = valueAt number.place := by
  rw [exactValue, valueAt, place]
  cases number.negative with
  | false => simp
  | true =>
      rcases Nat.eq_zero_or_pos number.rank with zero | positive
      · simp [zero, magnitude_zero]
      · simp [positive]

theorem valueAt_lt_valueAt {place other : Int} (less : place < other)
    (within : place.natAbs ≤ infinityRank) (otherWithin : other.natAbs ≤ infinityRank) :
    valueAt place < valueAt other := by
  rw [valueAt, valueAt]
  split_ifs with negative otherNegative otherNegative
  · rw [EReal.neg_lt_neg_iff]
    exact magnitude_lt_magnitude (by omega) within
  · have positive : 0 < magnitude place.natAbs := by
      rw [← magnitude_zero]
      exact magnitude_lt_magnitude (by omega) within
    exact (EReal.neg_lt_zero.mpr positive).trans_le (magnitude_nonneg _)
  · omega
  · exact magnitude_lt_magnitude (by omega) otherWithin

theorem natAbs_place_le {number : Binary64} (isNumber : number.isNaN = false) :
    number.place.natAbs ≤ infinityRank := by
  rw [isNaN, decide_eq_false_iff_not, not_lt] at isNumber
  rw [place]
  split <;> omega

/-- Floating point numbers are in the order of their values. -/
theorem place_lt_iff {first second : Binary64} (isFirst : first.isNaN = false)
    (isSecond : second.isNaN = false) :
    first.place < second.place ↔ first.exactValue < second.exactValue := by
  rw [exactValue_eq_valueAt, exactValue_eq_valueAt]
  constructor
  · intro less
    exact valueAt_lt_valueAt less (natAbs_place_le isFirst) (natAbs_place_le isSecond)
  · intro less
    by_contra notLess
    rcases (not_lt.mp notLess).eq_or_lt with same | greater
    · rw [same] at less
      exact less.false
    · exact less.asymm
        (valueAt_lt_valueAt greater (natAbs_place_le isSecond) (natAbs_place_le isFirst))

theorem isNaN_ofRank (negative : Bool) (rank : Nat) : (ofRank negative rank).isNaN = false :=
  decide_eq_false (not_lt.mpr (min_le_right rank infinityRank))

theorem exactValue_ofInt_natCast (number : Nat) :
    (ofInt number).exactValue = magnitude (nearestRank (number * unitsPerOne) 1) := by
  have infinite : magnitude infinityRank = ⊤ := if_neg (lt_irrefl _)
  have rounded : (ofInt number).exactValue =
      magnitude (min (nearestRank (number * unitsPerOne) 1) infinityRank) := by
    simp [ofInt, exactValue, ofRank]
  rw [rounded]
  rcases le_total (nearestRank (number * unitsPerOne) 1) infinityRank with within | beyond
  · rw [min_eq_left within]
  · rw [min_eq_right beyond, infinite]
    exact (eq_top_iff.mpr (infinite ▸ magnitude_mono beyond)).symm

theorem exactValue_ofInt_neg (number : Int) :
    (ofInt (-number)).exactValue = -(ofInt number).exactValue := by
  rcases lt_trichotomy number 0 with negative | rfl | positive
  · simp [ofInt, exactValue, ofRank, negative, negative.le]
  · have zero : (ofInt 0).exactValue = 0 := by
      have nearest : nearestRank (0 * unitsPerOne) 1 = 0 := by decide
      rw [← Nat.cast_zero, exactValue_ofInt_natCast, nearest, magnitude_zero]
    rw [neg_zero, zero, neg_zero]
  · simp [ofInt, exactValue, ofRank, positive, positive.le]

theorem exactValue_negate (number : Binary64) :
    number.negate.exactValue = -number.exactValue := by
  rw [exactValue, exactValue, negate]
  cases number.negative <;> simp

theorem le_nearestRank_of_magnitude_le {rank number : Nat}
    (le : magnitude rank ≤ ((number : ℝ) : EReal)) :
    rank ≤ nearestRank (number * unitsPerOne) 1 := by
  rw [magnitude] at le
  split at le
  · rw [EReal.coe_le_coe_iff, div_le_iff₀ unitsPerOne_cast_pos] at le
    exact le_nearestRank one_pos (by rw [Nat.mul_one]; exact_mod_cast le)
  · exact absurd le (not_le.mpr (EReal.coe_lt_top _))

theorem magnitude_nearestRank_le {rank number : Nat}
    (le : ((number : ℝ) : EReal) ≤ magnitude rank) :
    magnitude (nearestRank (number * unitsPerOne) 1) ≤ magnitude rank := by
  by_cases finite : rank < infinityRank
  · apply magnitude_mono
    rw [magnitude, if_pos finite, EReal.coe_le_coe_iff, le_div_iff₀ unitsPerOne_cast_pos] at le
    exact nearestRank_le_of_le one_pos (by rw [Nat.mul_one]; exact_mod_cast le)
  · have infinite : magnitude rank = ⊤ := if_neg finite
    rw [infinite]
    exact le_top

section Sides

variable {number : Binary64}

theorem le_ofInt_natCast {integer : Nat} (le : number.exactValue ≤ ((integer : ℝ) : EReal)) :
    number.exactValue ≤ (ofInt integer).exactValue := by
  rw [exactValue_ofInt_natCast]
  rw [exactValue] at le ⊢
  split at le
  · next negative =>
      rw [if_pos negative]
      exact (EReal.neg_le_zero.mpr (magnitude_nonneg _)).trans (magnitude_nonneg _)
  · next nonnegative =>
      rw [if_neg nonnegative]
      exact magnitude_mono (le_nearestRank_of_magnitude_le le)

theorem ofInt_natCast_le {integer : Nat} (le : ((integer : ℝ) : EReal) ≤ number.exactValue) :
    (ofInt integer).exactValue ≤ number.exactValue := by
  rw [exactValue_ofInt_natCast]
  rw [exactValue] at le ⊢
  split at le
  · next negative =>
      -- What is not above zero is at least a natural number only if this is zero.
      have nonpositive : ((integer : ℝ) : EReal) ≤ 0 :=
        le.trans (EReal.neg_le_zero.mpr (magnitude_nonneg _))
      obtain rfl : integer = 0 := by
        rw [← EReal.coe_zero, EReal.coe_le_coe_iff] at nonpositive
        exact_mod_cast nonpositive.antisymm (Nat.cast_nonneg integer)
      have nearest : nearestRank (0 * unitsPerOne) 1 = 0 := by decide
      rw [nearest, magnitude_zero, if_pos negative]
      simpa using le
  · next nonnegative =>
      rw [if_neg nonnegative]
      exact magnitude_nearestRank_le le

/-- An integer is not rounded beyond a floating point number below it. -/
theorem le_ofInt {integer : Int} (le : number.exactValue ≤ ((integer : ℝ) : EReal)) :
    number.exactValue ≤ (ofInt integer).exactValue := by
  obtain ⟨natural, rfl | rfl⟩ := integer.eq_nat_or_neg
  · exact le_ofInt_natCast (by simpa using le)
  · have flipped : ((natural : ℝ) : EReal) ≤ number.negate.exactValue := by
      rw [exactValue_negate]
      apply EReal.le_neg_of_le_neg
      simpa using le
    have rounded := ofInt_natCast_le flipped
    rw [exactValue_negate] at rounded
    rw [exactValue_ofInt_neg]
    exact EReal.le_neg_of_le_neg rounded

theorem ofInt_le {integer : Int} (le : ((integer : ℝ) : EReal) ≤ number.exactValue) :
    (ofInt integer).exactValue ≤ number.exactValue := by
  obtain ⟨natural, rfl | rfl⟩ := integer.eq_nat_or_neg
  · exact ofInt_natCast_le (by simpa using le)
  · have flipped : number.negate.exactValue ≤ ((natural : ℝ) : EReal) := by
      rw [exactValue_negate, EReal.neg_le]
      simpa using le
    have rounded := le_ofInt_natCast flipped
    rw [exactValue_negate, EReal.neg_le] at rounded
    rw [exactValue_ofInt_neg]
    exact rounded

end Sides

theorem exactValue_ofInt_mono {integer other : Int} (le : integer ≤ other) :
    (ofInt integer).exactValue ≤ (ofInt other).exactValue := by
  have natural : ∀ {first second : Nat}, first ≤ second →
      (ofInt first).exactValue ≤ (ofInt second).exactValue := by
    intro first second le
    rw [exactValue_ofInt_natCast, exactValue_ofInt_natCast]
    exact magnitude_mono (nearestRank_mono one_pos (Nat.mul_le_mul_right _ le))
  have nonnegative : ∀ number : Nat, 0 ≤ (ofInt number).exactValue := by
    intro number
    rw [exactValue_ofInt_natCast]
    exact magnitude_nonneg _
  obtain ⟨first, rfl | rfl⟩ := integer.eq_nat_or_neg <;>
    obtain ⟨second, rfl | rfl⟩ := other.eq_nat_or_neg
  · exact natural (by omega)
  · obtain ⟨rfl, rfl⟩ : first = 0 ∧ second = 0 := by omega
    exact le_rfl
  · rw [exactValue_ofInt_neg]
    exact (EReal.neg_le_zero.mpr (nonnegative first)).trans (nonnegative second)
  · rw [exactValue_ofInt_neg, exactValue_ofInt_neg, EReal.neg_le_neg_iff]
    exact natural (by omega)

theorem exactValue_ofInt {integer : Int} (small : integer.natAbs ≤ 2 ^ 53) :
    (ofInt integer).exactValue = ((integer : ℝ) : EReal) := by
  have natural : ∀ number : Nat, number ≤ 2 ^ 53 →
      (ofInt number).exactValue = ((number : ℝ) : EReal) := by
    intro number small
    obtain ⟨rank, units⟩ := exists_unitsOfRank_eq 1074 small
    rw [← unitsPerOne_eq] at units
    have exactly : number * unitsPerOne = unitsOfRank rank * 1 := by rw [units, Nat.mul_one]
    have finite : rank < infinityRank := by
      have bound : 2 ^ 53 * unitsPerOne < unitsOfRank infinityRank := by decide +kernel
      have below : number * unitsPerOne ≤ 2 ^ 53 * unitsPerOne := Nat.mul_le_mul_right _ small
      exact unitsOfRank_strictMono.lt_iff_lt.mp (by omega)
    have value : (unitsOfRank rank : ℝ) = number * unitsPerOne := by
      exact_mod_cast units
    rw [exactValue_ofInt_natCast, nearestRank_units one_pos exactly, magnitude, if_pos finite,
      value, mul_div_cancel_right₀ _ unitsPerOne_cast_pos.ne']
  obtain ⟨number, rfl | rfl⟩ := integer.eq_nat_or_neg
  · simpa using natural number (by simpa using small)
  · rw [exactValue_ofInt_neg, natural number (by simpa using small)]
    simp

end JsonSieve.Binary64
