import JsonSieve.Binary64.Rounding
import Mathlib

/-!
# Rounding to the nearest rank

The magnitudes grow with their ranks, and within one block of ranks they grow by the same step.  A
block reaches one rank further than its last magnitude of that step, since the next block begins
where the step still fits; so two neighbouring ranks always lie in a common block.

A quotient is rounded within the block of its leading digit.  Hence a quotient beyond the middle of
two neighbouring magnitudes is rounded to the far side and one before the middle to the near side.
This is all that is needed of rounding: it keeps the order, it fixes every magnitude, and a
quotient less than half a step from a magnitude is rounded to this magnitude.
-/

namespace JsonSieve.Binary64

theorem unitsPerOne_eq : unitsPerOne = 2 ^ 1074 := by decide +kernel

theorem unitsPerOne_pos : 0 < unitsPerOne := by decide

/-- Within a block the magnitudes are the multiples of one step. -/
theorem unitsOfRank_block {coarseness offset : Nat}
    (lower : coarseness = 0 ∨ 2 ^ 52 ≤ offset) (upper : offset ≤ 2 ^ 53) :
    unitsOfRank (coarseness * 2 ^ 52 + offset) = offset * 2 ^ coarseness := by
  rw [unitsOfRank, Nat.shiftLeft_eq, Nat.shiftLeft_eq, Nat.one_mul]
  by_cases small : coarseness * 2 ^ 52 + offset < 2 ^ 52
  · obtain rfl : coarseness = 0 := by omega
    rw [if_pos small]
    omega
  · rw [if_neg small]
    rcases upper.eq_or_lt with rfl | upper
    · -- the end of the block, where the next one begins
      have quotient : (coarseness * 2 ^ 52 + 2 ^ 53) / 2 ^ 52 - 1 = coarseness + 1 := by omega
      have remainder : (coarseness * 2 ^ 52 + 2 ^ 53) % 2 ^ 52 = 0 := by omega
      rw [quotient, remainder, pow_succ]
      ring
    · have quotient : (coarseness * 2 ^ 52 + offset) / 2 ^ 52 - 1 = coarseness := by omega
      have remainder : 2 ^ 52 + (coarseness * 2 ^ 52 + offset) % 2 ^ 52 = offset := by omega
      rw [quotient, remainder]

theorem exists_block (rank : Nat) :
    ∃ coarseness offset, rank = coarseness * 2 ^ 52 + offset ∧
      (coarseness = 0 ∨ 2 ^ 52 ≤ offset) ∧ offset < 2 ^ 53 := by
  refine ⟨rank / 2 ^ 52 - 1, rank - (rank / 2 ^ 52 - 1) * 2 ^ 52, ?_, ?_, ?_⟩ <;> omega

theorem unitsOfRank_succ_block {coarseness offset : Nat}
    (lower : coarseness = 0 ∨ 2 ^ 52 ≤ offset) (upper : offset < 2 ^ 53) :
    unitsOfRank (coarseness * 2 ^ 52 + offset + 1) = (offset + 1) * 2 ^ coarseness := by
  rw [Nat.add_assoc]
  exact unitsOfRank_block (lower.imp id (Nat.le_add_right_of_le)) upper

theorem unitsOfRank_strictMono : StrictMono unitsOfRank := by
  refine strictMono_nat_of_lt_succ fun rank => ?_
  obtain ⟨coarseness, offset, rfl, lower, upper⟩ := exists_block rank
  rw [unitsOfRank_block lower upper.le, unitsOfRank_succ_block lower upper]
  exact Nat.mul_lt_mul_of_pos_right (Nat.lt_succ_self offset) (Nat.two_pow_pos coarseness)

/-- Every number of at most 53 bits, times a power of two, is a magnitude. -/
theorem exists_unitsOfRank_eq {significand : Nat} (coarseness : Nat)
    (upper : significand ≤ 2 ^ 53) : ∃ rank, unitsOfRank rank = significand * 2 ^ coarseness := by
  induction coarseness generalizing significand with
  | zero => exact ⟨_, unitsOfRank_block (Or.inl rfl) upper⟩
  | succ coarseness ih =>
      by_cases normal : 2 ^ 52 ≤ significand
      · exact ⟨_, unitsOfRank_block (Or.inr normal) upper⟩
      · obtain ⟨rank, units⟩ := @ih (significand * 2) (by omega)
        exact ⟨rank, by rw [units, pow_succ]; ring⟩

section Quotients

variable {numerator denominator bound : Nat}

theorem lt_roundedQuotient (positive : 0 < denominator)
    (beyond : (2 * bound + 1) * denominator < 2 * numerator) :
    bound < roundedQuotient numerator denominator := by
  have split := Nat.div_add_mod numerator denominator
  have remainder := Nat.mod_lt numerator positive
  have expand : (2 * bound + 1) * denominator = 2 * (denominator * bound) + denominator := by ring
  have above : bound ≤ numerator / denominator := by
    by_contra below
    have fewer : denominator * (numerator / denominator + 1) ≤ denominator * bound :=
      Nat.mul_le_mul_left denominator (by omega)
    rw [Nat.mul_add] at fewer
    omega
  unfold roundedQuotient
  dsimp only
  by_cases same : numerator / denominator = bound
  · rw [same] at split ⊢
    split_ifs <;> omega
  · split_ifs <;> omega

theorem roundedQuotient_le (positive : 0 < denominator)
    (before : 2 * numerator < (2 * bound + 1) * denominator) :
    roundedQuotient numerator denominator ≤ bound := by
  have split := Nat.div_add_mod numerator denominator
  have remainder := Nat.mod_lt numerator positive
  have expand : (2 * bound + 1) * denominator = 2 * (denominator * bound) + denominator := by ring
  have below : numerator / denominator ≤ bound := by
    by_contra above
    have more : denominator * (bound + 1) ≤ denominator * (numerator / denominator) :=
      Nat.mul_le_mul_left denominator (by omega)
    rw [Nat.mul_add] at more
    omega
  unfold roundedQuotient
  dsimp only
  by_cases same : numerator / denominator = bound
  · rw [same] at split ⊢
    split_ifs <;> omega
  · split_ifs <;> omega

theorem roundedQuotient_mul_right {factor : Nat} (positive : 0 < factor) :
    roundedQuotient (numerator * factor) (denominator * factor) =
      roundedQuotient numerator denominator := by
  simp only [roundedQuotient, Nat.mul_div_mul_right _ _ positive, Nat.mul_mod_mul_right,
    ← Nat.mul_assoc, Nat.mul_lt_mul_right positive]

end Quotients

section Nearest

variable {numerator denominator : Nat}

/-- A quotient is rounded within the block of its leading digit. -/
theorem exists_block_of_quotient (positive : 0 < denominator) (numerator : Nat) :
    ∃ coarseness, nearestRank numerator denominator = coarseness * 2 ^ 52 +
        roundedQuotient numerator (denominator * 2 ^ coarseness) ∧
      numerator < 2 ^ 53 * (denominator * 2 ^ coarseness) ∧
      (coarseness = 0 ∨ 2 ^ 52 * (denominator * 2 ^ coarseness) ≤ numerator) := by
  refine ⟨(numerator / denominator).log2 - 52, ?_, ?_, ?_⟩
  · rw [nearestRank, Nat.shiftLeft_eq, Nat.shiftLeft_eq]
  · have below : numerator / denominator < 2 ^ (53 + ((numerator / denominator).log2 - 52)) :=
      Nat.lt_log2_self.trans_le (Nat.pow_le_pow_right (by decide) (by omega))
    calc numerator
        < 2 ^ (53 + ((numerator / denominator).log2 - 52)) * denominator :=
          (Nat.div_lt_iff_lt_mul positive).mp below
      _ = 2 ^ 53 * (denominator * 2 ^ ((numerator / denominator).log2 - 52)) := by
          rw [pow_add]
          ring
  · rcases Nat.eq_zero_or_pos ((numerator / denominator).log2 - 52) with fine | coarse
    · exact Or.inl fine
    · right
      have nonzero : numerator / denominator ≠ 0 := by
        intro zero
        rw [zero] at coarse
        exact absurd coarse (by decide)
      have above : 2 ^ (52 + ((numerator / denominator).log2 - 52)) ≤ numerator / denominator :=
        (Nat.pow_le_pow_right (by decide) (by omega)).trans (Nat.log2_self_le nonzero)
      calc 2 ^ 52 * (denominator * 2 ^ ((numerator / denominator).log2 - 52))
          = 2 ^ (52 + ((numerator / denominator).log2 - 52)) * denominator := by
            rw [pow_add]
            ring
        _ ≤ numerator := (Nat.le_div_iff_mul_le positive).mp above

theorem block_cases (coarseness rank : Nat) :
    (coarseness ≠ 0 ∧ rank < coarseness * 2 ^ 52 + 2 ^ 52) ∨
      (∃ offset, rank = coarseness * 2 ^ 52 + offset ∧
        (coarseness = 0 ∨ 2 ^ 52 ≤ offset) ∧ offset < 2 ^ 53) ∨
      coarseness * 2 ^ 52 + 2 ^ 53 ≤ rank := by
  by_cases before : coarseness ≠ 0 ∧ rank < coarseness * 2 ^ 52 + 2 ^ 52
  · exact Or.inl before
  · right
    by_cases beyond : coarseness * 2 ^ 52 + 2 ^ 53 ≤ rank
    · exact Or.inr beyond
    · exact Or.inl ⟨rank - coarseness * 2 ^ 52, by omega, by omega, by omega⟩

/-- A quotient beyond the middle of two neighbouring magnitudes is rounded to the far side. -/
theorem lt_nearestRank {rank : Nat} (positive : 0 < denominator)
    (beyond : (unitsOfRank rank + unitsOfRank (rank + 1)) * denominator < 2 * numerator) :
    rank < nearestRank numerator denominator := by
  obtain ⟨coarseness, nearest, upper, lower⟩ := exists_block_of_quotient positive numerator
  have stepPositive : 0 < denominator * 2 ^ coarseness :=
    Nat.mul_pos positive (Nat.two_pow_pos coarseness)
  rw [nearest]
  rcases block_cases coarseness rank with ⟨coarse, before⟩ | ⟨offset, rfl, inBlock, last⟩ | after
  · have filled : 2 ^ 52 - 1 < roundedQuotient numerator (denominator * 2 ^ coarseness) :=
      lt_roundedQuotient stepPositive (by have := lower.resolve_left coarse; omega)
    omega
  · rw [unitsOfRank_block inBlock last.le, unitsOfRank_succ_block inBlock last] at beyond
    have further : offset < roundedQuotient numerator (denominator * 2 ^ coarseness) := by
      refine lt_roundedQuotient stepPositive (lt_of_eq_of_lt ?_ beyond)
      ring
    omega
  · have blockEnd : 2 ^ 53 * 2 ^ coarseness ≤ unitsOfRank rank := by
      rw [← unitsOfRank_block (Or.inr (by decide)) le_rfl]
      exact unitsOfRank_strictMono.monotone after
    have next : unitsOfRank rank ≤ unitsOfRank (rank + 1) :=
      unitsOfRank_strictMono.monotone (Nat.le_succ rank)
    have tooFar : 2 * (2 ^ 53 * (denominator * 2 ^ coarseness)) ≤
        (unitsOfRank rank + unitsOfRank (rank + 1)) * denominator := by
      calc 2 * (2 ^ 53 * (denominator * 2 ^ coarseness))
          = (2 ^ 53 * 2 ^ coarseness + 2 ^ 53 * 2 ^ coarseness) * denominator := by ring
        _ ≤ (unitsOfRank rank + unitsOfRank (rank + 1)) * denominator :=
          Nat.mul_le_mul_right _ (Nat.add_le_add blockEnd (blockEnd.trans next))
    omega

/-- A quotient before the middle of two neighbouring magnitudes is rounded to the near side. -/
theorem nearestRank_le {rank : Nat} (positive : 0 < denominator)
    (before : 2 * numerator < (unitsOfRank rank + unitsOfRank (rank + 1)) * denominator) :
    nearestRank numerator denominator ≤ rank := by
  obtain ⟨coarseness, nearest, upper, lower⟩ := exists_block_of_quotient positive numerator
  have stepPositive : 0 < denominator * 2 ^ coarseness :=
    Nat.mul_pos positive (Nat.two_pow_pos coarseness)
  rw [nearest]
  rcases block_cases coarseness rank with ⟨coarse, early⟩ | ⟨offset, rfl, inBlock, last⟩ | after
  · have blockStart : unitsOfRank (rank + 1) ≤ 2 ^ 52 * 2 ^ coarseness := by
      rw [← unitsOfRank_block (Or.inr le_rfl) (by decide)]
      exact unitsOfRank_strictMono.monotone early
    have next : unitsOfRank rank ≤ unitsOfRank (rank + 1) :=
      unitsOfRank_strictMono.monotone (Nat.le_succ rank)
    have tooEarly : (unitsOfRank rank + unitsOfRank (rank + 1)) * denominator ≤
        2 * (2 ^ 52 * (denominator * 2 ^ coarseness)) := by
      calc (unitsOfRank rank + unitsOfRank (rank + 1)) * denominator
          ≤ (2 ^ 52 * 2 ^ coarseness + 2 ^ 52 * 2 ^ coarseness) * denominator :=
            Nat.mul_le_mul_right _ (Nat.add_le_add (next.trans blockStart) blockStart)
        _ = 2 * (2 ^ 52 * (denominator * 2 ^ coarseness)) := by ring
    have := lower.resolve_left coarse
    omega
  · rw [unitsOfRank_block inBlock last.le, unitsOfRank_succ_block inBlock last] at before
    have within : roundedQuotient numerator (denominator * 2 ^ coarseness) ≤ offset := by
      refine roundedQuotient_le stepPositive (lt_of_lt_of_eq before ?_)
      ring
    omega
  · have filled : roundedQuotient numerator (denominator * 2 ^ coarseness) ≤ 2 ^ 53 :=
      roundedQuotient_le stepPositive (by omega)
    omega

/-- Rounding keeps a quotient on its side of every magnitude. -/
theorem le_nearestRank {rank : Nat} (positive : 0 < denominator)
    (above : unitsOfRank rank * denominator ≤ numerator) :
    rank ≤ nearestRank numerator denominator := by
  cases rank with
  | zero => exact Nat.zero_le _
  | succ rank =>
      apply lt_nearestRank positive
      have step := Nat.mul_lt_mul_of_pos_right
        (unitsOfRank_strictMono (Nat.lt_add_one rank)) positive
      rw [Nat.add_mul]
      omega

theorem nearestRank_le_of_le {rank : Nat} (positive : 0 < denominator)
    (below : numerator ≤ unitsOfRank rank * denominator) :
    nearestRank numerator denominator ≤ rank := by
  apply nearestRank_le positive
  have step := Nat.mul_lt_mul_of_pos_right
    (unitsOfRank_strictMono (Nat.lt_add_one rank)) positive
  rw [Nat.add_mul]
  omega

theorem nearestRank_units {rank : Nat} (positive : 0 < denominator)
    (exactly : numerator = unitsOfRank rank * denominator) :
    nearestRank numerator denominator = rank :=
  le_antisymm (nearestRank_le_of_le positive exactly.le) (le_nearestRank positive exactly.ge)

theorem nearestRank_mul_right {factor : Nat} (positive : 0 < factor) :
    nearestRank (numerator * factor) (denominator * factor) =
      nearestRank numerator denominator := by
  rw [nearestRank, nearestRank, Nat.mul_div_mul_right _ _ positive, Nat.shiftLeft_eq,
    Nat.shiftLeft_eq, Nat.shiftLeft_eq, Nat.mul_right_comm, roundedQuotient_mul_right positive]

theorem nearestRank_congr {otherNumerator otherDenominator : Nat} (positive : 0 < denominator)
    (otherPositive : 0 < otherDenominator)
    (same : numerator * otherDenominator = otherNumerator * denominator) :
    nearestRank numerator denominator = nearestRank otherNumerator otherDenominator := by
  rw [← nearestRank_mul_right otherPositive, same, Nat.mul_comm denominator,
    nearestRank_mul_right positive]

theorem nearestRank_mono {other : Nat} (positive : 0 < denominator) (le : numerator ≤ other) :
    nearestRank numerator denominator ≤ nearestRank other denominator := by
  by_contra greater
  -- Then the middle above the smaller rank would separate the quotients the other way round.
  have notBefore := mt (nearestRank_le positive) greater
  have notBeyond := mt (lt_nearestRank positive) (lt_irrefl (nearestRank other denominator))
  obtain rfl : numerator = other := by omega
  exact greater le_rfl

end Nearest

end JsonSieve.Binary64
