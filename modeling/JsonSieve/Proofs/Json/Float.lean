import JsonSieve.Proofs.Binary64.Arithmetic
import JsonSieve.Proofs.Decimal.Shortest
import JsonSieve.Proofs.Json.Spelling

/-!
# Reading written floating point numbers

The written form of a finite floating point number is its shortest decimal, spelled as a numeral with
a fraction or an exponent.  The numeral is always read, as some finite number: even the digits of
the greatest magnitude do not exceed it by rounding.  But reading rounds the significand and the
power of ten before it multiplies or divides, so that the number need not be the one that was written.

It is the same number if both the significand and the power of ten are exact.  This holds of all
decimals of at most fifteen digits from `1e-8` up to `1e15`.
-/

namespace JsonSieve.Json

open Binary64
open Decimal (mostDigits shortest)

namespace Numeral

section Decimals

/-- A numeral spells a decimal, with so many zeros after its digits. -/
structure Spells (numeral : Numeral) (decimal : Decimal) (zeros : Nat) : Prop where
  unsigned : numeral.negative = false
  wellFormed : numeral.WellFormed
  written : decimal.written floatStyle = numeral.spelled
  noInteger : numeral.fraction ≠ [] ∨ numeral.exponent ≠ none
  significand : numeral.significand = Digits.toNat decimal.digits * 10 ^ zeros
  shift : numeral.shift = decimal.exponent + 1 - decimal.digits.length - zeros
  few : decimal.digits.length + zeros ≤ mostDigits
  padded : 0 < zeros → numeral.shift = -1
  moderate : ∀ part ∈ numeral.exponent, Digits.toNat part.2 = decimal.exponent.natAbs

theorem toNat_replicate_append (zeros : Nat) (digits : List Char) :
    Digits.toNat (List.replicate zeros '0' ++ digits) = Digits.toNat digits := by
  induction zeros with
  | zero => rfl
  | succ zeros ih =>
      rw [← ih, List.replicate_succ, List.cons_append, Digits.toNat, List.foldl_cons]
      rfl

theorem isDigit_of_mem_replicate {zeros : Nat} {digit : Char}
    (member : digit ∈ List.replicate zeros '0') : digit.isDigit := by
  rw [List.eq_of_mem_replicate member]
  rfl

variable {decimal : Decimal}

theorem written_positional (least : -5 ≤ decimal.exponent) (greatest : decimal.exponent ≤ 15) :
    decimal.written floatStyle = decimal.positional :=
  if_pos ⟨least, greatest⟩

variable (proper : decimal.Proper)
include proper

/-- A decimal below one that is not too small is spelled with zeros after the point. -/
theorem exists_spells_below_one (positional : -5 ≤ decimal.exponent)
    (small : decimal.exponent < 0) : ∃ numeral, Spells numeral decimal 0 := by
  refine ⟨⟨false, ['0'], List.replicate (-decimal.exponent - 1).toNat '0' ++ decimal.digits,
    none⟩, rfl, ?_, ?_, Or.inl ?_, ?_, ?_, proper.short, nofun, nofun⟩
  · refine ⟨List.cons_ne_nil _ _, Or.inl rfl, by simp, ?_, nofun⟩
    intro digit member
    rcases List.mem_append.mp member with zero | member
    · exact isDigit_of_mem_replicate zero
    · exact proper.digital digit member
  · rw [written_positional (by omega) (by omega), Decimal.positional, if_pos small]
    simp [spelled, spelledTail, spelledExponent, proper.nonempty]
  · simp [proper.nonempty]
  · have zero : Digits.toNat (['0'] ++ (List.replicate (-decimal.exponent - 1).toNat '0' ++
        decimal.digits)) = Digits.toNat decimal.digits := toNat_replicate_append (_ + 1) _
    rw [significand, zero]
    simp
  · simp only [shift, List.length_append, List.length_replicate]
    omega

theorem head?_take_ne_zero {places : Nat} (positive : 0 < places) :
    (decimal.digits.take places).head? ≠ some '0' := by
  rw [List.head?_take, if_neg positive.ne']
  exact proper.head_ne_zero

theorem exists_spells_fraction (large : 0 ≤ decimal.exponent) (moderate : decimal.exponent ≤ 15)
    (long : decimal.exponent.toNat + 1 < decimal.digits.length) :
    ∃ numeral, Spells numeral decimal 0 := by
  have fraction : decimal.digits.drop (decimal.exponent.toNat + 1) ≠ [] := by
    simpa [List.drop_eq_nil_iff] using long
  refine ⟨⟨false, decimal.digits.take (decimal.exponent.toNat + 1),
    decimal.digits.drop (decimal.exponent.toNat + 1), none⟩, rfl, ?_, ?_, Or.inl fraction, ?_, ?_,
    proper.short, nofun, nofun⟩
  · exact ⟨by simp [proper.nonempty], Or.inr (head?_take_ne_zero proper (by omega)),
      fun digit member => proper.digital digit (List.mem_of_mem_take member),
      fun digit member => proper.digital digit (List.mem_of_mem_drop member), nofun⟩
  · rw [written_positional (by omega) (by omega), Decimal.positional, if_neg (by omega)]
    simp [spelled, spelledTail, spelledExponent, fraction, long.le]
  · rw [significand, List.take_append_drop, pow_zero, Nat.mul_one]
  · simp only [shift, List.length_drop]
    omega

theorem exists_spells_whole (large : 0 ≤ decimal.exponent) (moderate : decimal.exponent ≤ 15)
    (short : decimal.digits.length ≤ decimal.exponent.toNat + 1) :
    ∃ numeral, Spells numeral decimal
      (decimal.exponent.toNat + 1 - decimal.digits.length + 1) := by
  have fraction : decimal.digits.drop (decimal.exponent.toNat + 1) = [] :=
    List.drop_eq_nil_iff.mpr short
  have whole : decimal.digits.take (decimal.exponent.toNat + 1) = decimal.digits :=
    List.take_of_length_le short
  refine ⟨⟨false, decimal.digits ++
    List.replicate (decimal.exponent.toNat + 1 - decimal.digits.length) '0', ['0'], none⟩, rfl,
    ?_, ?_, Or.inl (List.cons_ne_nil _ _), ?_, ?_, ?_, fun _ => ?_, nofun⟩
  · refine ⟨by simp [proper.nonempty], Or.inr ?_, ?_, by simp, nofun⟩
    · rw [List.head?_append_of_ne_nil _ proper.nonempty]
      exact proper.head_ne_zero
    · intro digit member
      rcases List.mem_append.mp member with member | zero
      · exact proper.digital digit member
      · exact isDigit_of_mem_replicate zero
  · rw [written_positional (by omega) (by omega), Decimal.positional, if_neg (by omega)]
    dsimp only
    rw [fraction, whole]
    simp [spelled, spelledTail, spelledExponent]
  · rw [significand, List.append_assoc, ← List.replicate_succ', Decimal.toNat_append_replicate]
  · simp only [shift, List.length_singleton]
    omega
  · rw [mostDigits]
    omega
  · simp [shift]

theorem exists_spells_scientific
    (scientific : decimal.exponent < -5 ∨ 15 < decimal.exponent) :
    ∃ numeral, Spells numeral decimal 0 := by
  refine ⟨⟨false, decimal.digits.take 1, decimal.digits.drop 1,
    some (decide (decimal.exponent < 0), Digits.ofNat decimal.exponent.natAbs)⟩, rfl, ?_, ?_,
    Or.inr nofun, ?_, ?_, proper.short, nofun, ?_⟩
  · refine ⟨by simp [proper.nonempty], Or.inr (head?_take_ne_zero proper one_pos),
      fun digit member => proper.digital digit (List.mem_of_mem_take member),
      fun digit member => proper.digital digit (List.mem_of_mem_drop member), ?_⟩
    rintro part isPart
    cases isPart
    exact ⟨Digits.ofNat_ne_nil _, fun digit => Digits.isDigit_of_mem_ofNat⟩
  · have style : ¬(floatStyle.leastPositional ≤ decimal.exponent ∧
        decimal.exponent ≤ floatStyle.greatestPositional) := by
      rw [floatStyle]
      dsimp only
      omega
    rw [Decimal.written, if_neg style, Decimal.scientific]
    simp [spelled, spelledTail, spelledExponent]
  · rw [significand, List.take_append_drop, pow_zero, Nat.mul_one]
  · have length := List.length_pos_iff.mpr proper.nonempty
    simp only [shift, List.length_drop, Digits.toNat_ofNat]
    split <;> rename_i sign <;> simp at sign <;> omega
  · rintro part isPart
    cases isPart
    exact Digits.toNat_ofNat _

theorem exists_spells : ∃ numeral zeros, Spells numeral decimal zeros := by
  by_cases scientific : decimal.exponent < -5 ∨ 15 < decimal.exponent
  · exact (exists_spells_scientific proper scientific).imp fun _ spells => ⟨0, spells⟩
  by_cases small : decimal.exponent < 0
  · exact (exists_spells_below_one proper (by omega) small).imp fun _ spells => ⟨0, spells⟩
  by_cases long : decimal.exponent.toNat + 1 < decimal.digits.length
  · exact (exists_spells_fraction proper (by omega) (by omega) long).imp fun _ spells =>
      ⟨0, spells⟩
  · exact (exists_spells_whole proper (by omega) (by omega) (by omega)).imp fun _ spells =>
      ⟨_, spells⟩

end Decimals

theorem isFinite_dividedByPower {number : Binary64} (finite : number.isFinite) (places : Nat) :
    (dividedByPower number places).isFinite := by
  have large : ∀ exponent, unitsPerOne ≤ (Binary64.ofNat (Nat.pow 10 exponent)).units :=
    fun exponent => unitsPerOne_le_ofNat (Nat.pow_pos (by decide))
  induction number, places using dividedByPower.induct with
  | case1 number places few =>
      rw [dividedByPower, if_pos few]
      exact isFinite_quotient finite (large _)
  | case2 number places many zero =>
      rw [dividedByPower, if_neg many, if_pos zero]
      exact finite
  | case3 number places many nonzero ih =>
      rw [dividedByPower, if_neg many, if_neg nonzero]
      exact ih (isFinite_quotient finite (large _))

/-- The sum of the two greatest finite magnitudes, in units. -/
def greatestSum : Nat := unitsOfRank (infinityRank - 2) + unitsOfRank (infinityRank - 1)

theorem isFinite_product_greatest : ∀ further < 17,
    ((Binary64.ofNat (greatestSum / (10 ^ (292 + further) * unitsPerOne * 2))).product
      (Binary64.ofNat (10 ^ (292 + further)))).isFinite := by decide +kernel

/-- A significand of seventeen digits times a power of ten is finite if the exact product does not
exceed the middle of the two greatest finite magnitudes. -/
theorem isFinite_product_of_below {significand shift : Nat} (positive : 0 < significand)
    (few : significand ≤ 10 ^ 17)
    (below : significand * (10 ^ shift * unitsPerOne * 2) ≤ greatestSum) :
    ((Binary64.ofNat significand).product (Binary64.ofNat (10 ^ shift))).isFinite := by
  -- Up to this power every significand is small enough.  From it on the bound counts, until the
  -- power alone exceeds the bound.
  rcases lt_or_ge shift 292 with small | large
  · have finite : ((Binary64.ofNat (10 ^ 17)).product (Binary64.ofNat (10 ^ 291))).isFinite := by
      decide +kernel
    exact isFinite_product_of_le (rank_ofNat_mono few)
      (rank_ofNat_mono (Nat.pow_le_pow_right (by decide) (by omega))) finite
  · obtain ⟨further, rfl⟩ := Nat.exists_eq_add_of_le large
    rcases lt_or_ge further 17 with moderate | beyond
    · have most : significand ≤ greatestSum / (10 ^ (292 + further) * unitsPerOne * 2) :=
        (Nat.le_div_iff_mul_le (Nat.mul_pos
          (Nat.mul_pos (Nat.pow_pos (by decide)) unitsPerOne_pos) (by decide))).mpr below
      exact isFinite_product_of_le (rank_ofNat_mono most) le_rfl
        (isFinite_product_greatest further moderate)
    · have tooLarge : greatestSum < 10 ^ (292 + 17) * unitsPerOne * 2 := by decide +kernel
      have power : ∀ {fewer more : Nat}, fewer ≤ more →
          10 ^ fewer * unitsPerOne * 2 ≤ 10 ^ more * unitsPerOne * 2 := fun le =>
        Nat.mul_le_mul_right _ (Nat.mul_le_mul_right _ (Nat.pow_le_pow_right (by decide) le))
      have more : 292 + 17 ≤ 292 + further := Nat.add_le_add_left beyond 292
      have once := Nat.le_mul_of_pos_left (10 ^ (292 + further) * unitsPerOne * 2) positive
      exact absurd below (not_le.mpr (tooLarge.trans_le ((power more).trans once)))

theorem exact_power {power : Nat} (small : power ≤ 22) : Exact (10 ^ power) := by
  have factors : 10 ^ power = 5 ^ power * 2 ^ power := Nat.mul_pow 5 2 power
  rw [factors]
  apply exact_of_bits
  · exact (Nat.pow_le_pow_right (by decide) small).trans (by decide)
  · rw [← factors]
    refine (Nat.mul_le_mul_right _ (Nat.pow_le_pow_right (by decide) small)).trans_lt ?_
    decide +kernel

namespace Spells

variable {numeral : Numeral} {decimal : Decimal} {zeros : Nat}
  (spells : Spells numeral decimal zeros)
include spells

theorem significand_pos (proper : decimal.Proper) : 0 < numeral.significand := by
  rw [spells.significand]
  exact Nat.mul_pos (Decimal.toNat_pos proper) (Nat.pow_pos (by decide))

theorem significand_lt (proper : decimal.Proper) : numeral.significand < 10 ^ 17 := by
  rw [spells.significand]
  calc Digits.toNat decimal.digits * 10 ^ zeros
      < 10 ^ decimal.digits.length * 10 ^ zeros :=
        Nat.mul_lt_mul_of_pos_right (Decimal.toNat_lt_pow proper.digital) (Nat.pow_pos (by decide))
    _ = 10 ^ (decimal.digits.length + zeros) := (pow_add ..).symm
    _ ≤ 10 ^ 17 := Nat.pow_le_pow_right (by decide) spells.few

theorem value_eq : (numeral.significand : ℚ) * 10 ^ numeral.shift = decimal.value := by
  rw [spells.significand, spells.shift, Decimal.value]
  push_cast
  rw [mul_assoc, ← zpow_natCast, ← zpow_add₀ (by norm_num)]
  congr 2
  omega

/-- The significand of a short decimal is exact: if it has more than fifteen digits then it closes
with a zero and has at most sixteen. -/
theorem exact_significand (proper : decimal.Proper) (few : decimal.digits.length ≤ 15)
    (greatest : decimal.exponent ≤ 14) : Exact numeral.significand := by
  have digits := Decimal.toNat_lt_pow proper.digital
  have finite : ∀ {natural : Nat}, natural ≤ 10 ^ 17 →
      natural * unitsPerOne < unitsOfRank infinityRank := fun small =>
    (Nat.mul_le_mul_right _ small).trans_lt (by decide +kernel)
  have small := finite (spells.significand_lt proper).le
  rcases Nat.eq_zero_or_pos zeros with unpadded | padded
  · have significand := spells.significand
    have fifteen : 10 ^ decimal.digits.length ≤ 10 ^ 15 := Nat.pow_le_pow_right (by decide) few
    rw [unpadded, pow_zero, Nat.mul_one] at significand
    have exact := exact_of_bits 0 (by omega : numeral.significand ≤ 2 ^ 53) (by simpa using small)
    simpa using exact
  · obtain ⟨fewer, rfl⟩ := Nat.exists_eq_add_of_lt padded
    have shift := spells.shift
    rw [spells.padded padded] at shift
    have sixteen : 10 ^ (decimal.digits.length + fewer) ≤ 10 ^ 15 :=
      Nat.pow_le_pow_right (by decide) (by omega)
    have half :
        Digits.toNat decimal.digits * 10 ^ fewer < 10 ^ (decimal.digits.length + fewer) := by
      rw [pow_add]
      exact Nat.mul_lt_mul_of_pos_right digits (Nat.pow_pos (by decide))
    have significand : numeral.significand =
        Digits.toNat decimal.digits * 10 ^ fewer * 5 * 2 ^ 1 := by
      rw [spells.significand]
      ring
    rw [significand] at small ⊢
    exact exact_of_bits 1 (by omega) small

end Spells

theorem shortest_greatest :
    shortest (infinityRank - 1) = ⟨"17976931348623157".toList, 308⟩ := by decide +kernel

section Shortest

variable {rank : Nat} (positive : 0 < rank) {numeral : Numeral} {zeros : Nat}
  (spells : Spells numeral (shortest rank) zeros)
include positive spells

theorem significand_mul_le {power : Nat} (shift : numeral.shift = power) :
    numeral.significand * (10 ^ power * unitsPerOne * 2) ≤
      unitsOfRank rank + unitsOfRank (rank + 1) := by
  have value := Decimal.value_shortest_le positive
  rw [← spells.value_eq, shift, zpow_natCast] at value
  have reordered : (numeral.significand : ℚ) * 10 ^ power * unitsPerOne * 2 =
      numeral.significand * (10 ^ power * unitsPerOne * 2) := by ring
  rw [reordered] at value
  exact_mod_cast value

variable (finite : rank < infinityRank)
include finite

theorem magnitude?_shortest :
    numeral.magnitude? = scaled? numeral.significand numeral.shift := by
  have proper := Decimal.proper_shortest positive
  refine magnitude?_eq ?_ fun part isPart => ?_
  · exact (spells.significand_lt proper).trans_le (by decide : 10 ^ 17 ≤ significandBound)
  · have least := Decimal.le_exponent_shortest positive
    have greatest := Decimal.exponent_shortest_lt positive finite
    have short := proper.short
    rw [mostDigits] at short
    rw [spells.moderate part isPart, greatestExponent]
    omega

theorem shift_lt : numeral.shift < 309 := by
  have greatest := Decimal.exponent_shortest_lt positive finite
  rw [spells.shift]
  omega

theorem isFinite_product_shortest {power : Nat} (shift : numeral.shift = power) :
    ((Binary64.ofNat numeral.significand).product (Binary64.ofNat (10 ^ power))).isFinite := by
  have proper := Decimal.proper_shortest positive
  have below := significand_mul_le positive spells shift
  rcases (Nat.le_sub_one_of_lt finite).eq_or_lt with greatest | smaller
  · -- The digits of the greatest finite magnitude are more than the general bound allows.
    have unpadded : zeros = 0 := by
      by_contra padded
      have := spells.padded (Nat.pos_of_ne_zero padded)
      omega
    have significand := spells.significand
    have exponent := spells.shift
    rw [greatest, shortest_greatest, unpadded] at significand exponent
    have isSignificand : numeral.significand = 17976931348623157 := significand
    have isPower : power = 292 := by
      rw [shift] at exponent
      have : (power : Int) = 292 := exponent
      omega
    rw [isSignificand, isPower]
    decide +kernel
  · refine isFinite_product_of_below (spells.significand_pos proper)
      (spells.significand_lt proper).le (below.trans ?_)
    exact Nat.add_le_add (unitsOfRank_strictMono.monotone (by omega))
      (unitsOfRank_strictMono.monotone (by omega))

theorem exists_magnitude :
    ∃ magnitude, numeral.magnitude? = some magnitude ∧ magnitude.isFinite := by
  have proper := Decimal.proper_shortest positive
  rw [magnitude?_shortest positive spells finite, scaled?]
  dsimp only
  split
  · have within : numeral.significand < significandBound :=
      (spells.significand_lt proper).trans_le (by decide)
    exact ⟨_, rfl, isFinite_dividedByPower (isFinite_ofNat within.le) _⟩
  · next nonnegative =>
      obtain ⟨power, shift⟩ := Int.eq_ofNat_of_zero_le (not_lt.mp nonnegative)
      have product := isFinite_product_shortest positive spells finite shift
      have within := shift_lt positive spells finite
      rw [if_pos (by rw [greatestPower]; omega), shift, Int.toNat_natCast, Nat.pow_eq,
        if_pos product]
      exact ⟨_, rfl, product⟩

/-- If the decimal is short then the significand and the power of ten are exact, so that there is
one rounding only. -/
theorem magnitude?_of_short (short : (shortest rank).Short) :
    numeral.magnitude? = some (ofRank false rank) := by
  have proper := Decimal.proper_shortest positive
  obtain ⟨few, least, greatest⟩ := short
  have value := spells.value_eq
  have exact := spells.exact_significand proper few greatest
  have shift := spells.shift
  have padded := spells.padded
  rw [magnitude?_shortest positive spells finite, scaled?]
  dsimp only
  -- A negative power of ten is divided by, any other one is multiplied with.
  rcases lt_or_ge numeral.shift 0 with negative | nonnegative
  · obtain ⟨power, isPower⟩ := Int.exists_eq_neg_ofNat negative.le
    have small : power ≤ 22 := by omega
    have nearest : nearestRank (numeral.significand * unitsPerOne) (10 ^ power) = rank := by
      refine Decimal.nearestRank_value_shortest positive (Nat.pow_pos (by decide)) ?_
      rw [← value, isPower, zpow_neg, zpow_natCast]
      have power : (10 : ℚ) ^ power ≠ 0 := by positivity
      push_cast
      field_simp
    rw [if_pos negative, isPower, Int.natAbs_neg, Int.natAbs_natCast, dividedByPower,
      if_pos (small.trans (by decide)), Nat.pow_eq, quotient_ofNat exact (exact_power small),
      nearest]
  · obtain ⟨power, isPower⟩ := Int.eq_ofNat_of_zero_le nonnegative
    have small : power ≤ 22 := by omega
    have nearest : nearestRank (numeral.significand * 10 ^ power * unitsPerOne) 1 = rank := by
      refine Decimal.nearestRank_value_shortest positive one_pos ?_
      rw [← value, isPower, zpow_natCast]
      push_cast
      ring
    have product : (Binary64.ofNat numeral.significand).product (Binary64.ofNat (10 ^ power)) =
        ofRank false rank := by
      rw [product_ofNat exact (exact_power small), Binary64.ofNat, nearest]
    have isFinite : (ofRank false rank).isFinite := isFinite_ofRank_iff.mpr finite
    rw [if_neg (not_lt.mpr nonnegative), isPower, if_pos (by rw [greatestPower]; omega),
      Int.toNat_natCast, Nat.pow_eq, product, if_pos isFinite]

end Shortest

/-- The written magnitude of a finite number is a numeral with a finite magnitude, which is the same
one if its decimal is short. -/
theorem exists_writtenMagnitude {rank : Nat} (finite : rank < infinityRank) :
    ∃ (numeral : Numeral) (magnitude : Binary64), numeral.negative = false ∧ numeral.WellFormed ∧
      writtenMagnitude rank = numeral.spelled ∧
      (numeral.fraction ≠ [] ∨ numeral.exponent ≠ none) ∧
      numeral.magnitude? = some magnitude ∧ magnitude.isFinite ∧
      (rank = 0 ∨ (shortest rank).Short → magnitude = ofRank false rank) := by
  rcases Nat.eq_zero_or_pos rank with rfl | positive
  · have isZero : dividedByPower (Binary64.ofNat 0) 1 = ofRank false 0 := by
      rw [dividedByPower]
      decide +kernel
    refine ⟨⟨false, ['0'], ['0'], none⟩, ofRank false 0, rfl,
      ⟨by simp, Or.inl rfl, by simp, by simp, nofun⟩, rfl, Or.inl (by simp), ?_,
      isFinite_ofRank_iff.mpr finite, fun _ => rfl⟩
    have isScaled : (⟨false, ['0'], ['0'], none⟩ : Numeral).magnitude? = scaled? 0 (-1) :=
      magnitude?_eq (by decide) nofun
    rw [isScaled]
    exact congrArg some isZero
  · obtain ⟨numeral, zeros, spells⟩ := exists_spells (Decimal.proper_shortest positive)
    obtain ⟨magnitude, isMagnitude, isFinite⟩ := exists_magnitude positive spells finite
    refine ⟨numeral, magnitude, spells.unsigned, spells.wellFormed, ?_, spells.noInteger,
      isMagnitude, isFinite, fun short => ?_⟩
    · rw [writtenMagnitude, if_neg positive.ne', spells.written]
    · have same := magnitude?_of_short positive spells finite (short.resolve_left positive.ne')
      rw [isMagnitude] at same
      exact Option.some.inj same

def signed (negative : Bool) (numeral : Numeral) : Numeral :=
  { numeral with negative := negative }

section Signed

variable {numeral : Numeral} (negative : Bool)

theorem WellFormed.signed (wellFormed : numeral.WellFormed) :
    (numeral.signed negative).WellFormed :=
  ⟨wellFormed.nonempty, wellFormed.leading, wellFormed.whole, wellFormed.fraction,
    wellFormed.exponent⟩

theorem spelled_signed (unsigned : numeral.negative = false) :
    (numeral.signed negative).spelled = (if negative then ['-'] else []) ++ numeral.spelled := by
  rw [spelled, spelled, unsigned]
  rfl

theorem value?_signed (noInteger : numeral.fraction ≠ [] ∨ numeral.exponent ≠ none)
    {magnitude : Binary64} (isMagnitude : numeral.magnitude? = some magnitude) :
    (numeral.signed negative).value? =
      some (.float (if negative then magnitude.negate else magnitude)) := by
  have noSignedInteger : (numeral.signed negative).integer? = none := by
    rw [integer?, if_neg]
    simpa [signed, or_iff_not_imp_left] using noInteger
  have sameMagnitude : (numeral.signed negative).magnitude? = some magnitude := isMagnitude
  rw [value?, noSignedInteger, sameMagnitude]
  rfl

end Signed

end Numeral

def Number.float? : Number → Option Binary64
  | .integer _ => none
  | .float value => some value

end JsonSieve.Json

namespace JsonSieve.Binary64

open Json
open Decimal (shortest)

/-- The number as which the written form of a floating point number is read. -/
def reread (number : Binary64) : Binary64 :=
  ((Numeral.read? (writtenFloat number)).bind
    (fun read => read.1.value?.bind Number.float?)).getD number

/-- A number whose shortest decimal is short, or zero. -/
def IsShort (number : Binary64) : Prop :=
  number.rank = 0 ∨ (shortest number.rank).Short

theorem signed_ofRank {number : Binary64} (finite : number.isFinite) :
    (if number.negative then (ofRank false number.rank).negate else ofRank false number.rank) =
      number := by
  have within := min_eq_left (isFinite_iff.mp finite).le
  obtain ⟨negative, rank, bound⟩ := number
  cases negative <;> simpa [ofRank, negate] using within

theorem read?_writtenFloat {number : Binary64} (finite : number.isFinite) :
    (∃ numeral, Numeral.read? (writtenFloat number) = some (numeral, []) ∧
      numeral.value? = some (.float number.reread)) ∧
    number.reread.isFinite ∧ (number.IsShort → number.reread = number) := by
  obtain ⟨numeral, magnitude, unsigned, wellFormed, written, noInteger, isMagnitude, isFinite,
    ofShort⟩ := Numeral.exists_writtenMagnitude (isFinite_iff.mp finite)
  have signed : writtenFloat number = (numeral.signed number.negative).spelled := by
    rw [writtenFloat, if_pos finite, written, Numeral.spelled_signed _ unsigned]
    cases number.negative <;> rfl
  have read := Numeral.read?_spelled (wellFormed.signed number.negative)
  have value := Numeral.value?_signed number.negative noInteger isMagnitude
  have isReread : number.reread = if number.negative then magnitude.negate else magnitude := by
    rw [reread, signed, read, Option.bind_some, value, Option.bind_some]
    rfl
  rw [isReread, signed]
  refine ⟨⟨_, read, value⟩, ?_, fun short => ?_⟩
  · split
    · exact isFinite
    · exact isFinite
  · rw [ofShort short]
    exact signed_ofRank finite

theorem reread_of_not_finite {number : Binary64} (infinite : number.isFinite = false) :
    number.reread = number := by
  have noNumeral : Numeral.read? ['n', 'u', 'l', 'l'] = none := by decide
  rw [reread, writtenFloat, if_neg (by simp [infinite]), noNumeral]
  rfl

theorem reread_of_readsBack {number : Binary64} (readsBack : (Number.float number).ReadsBack) :
    number.reread = number := by
  obtain ⟨numeral, read, value⟩ := readsBack
  rw [writtenNumber] at read
  rw [reread, read, Option.bind_some, value]
  rfl

end JsonSieve.Binary64
