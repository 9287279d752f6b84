import JsonSieve.Proofs.Binary64.Rounding

/-!
# Products and quotients of binary64 numbers

A product grows with its factors, and a quotient by a number that is not below one stays finite.

Numbers of up to 53 bits times a power of two are represented exactly.  As long as this holds of
both operands, a product or a quotient is the exact one, rounded once.
-/

namespace JsonSieve.Binary64

variable {first second number : Binary64} {natural other : Nat}

/-- A natural number has an exact representation. -/
def Exact (natural : Nat) : Prop :=
  (ofNat natural).units = natural * unitsPerOne

theorem exact_of_units {rank : Nat} (units : unitsOfRank rank = natural * unitsPerOne)
    (finite : natural * unitsPerOne < unitsOfRank infinityRank) : Exact natural := by
  have within : rank < infinityRank := by
    rwa [← units, unitsOfRank_strictMono.lt_iff_lt] at finite
  have nearest : nearestRank (natural * unitsPerOne) 1 = rank :=
    nearestRank_units one_pos (by rw [units, Nat.mul_one])
  rw [Exact, Binary64.units, ofNat, ofRank, nearest]
  dsimp only
  rw [min_eq_left within.le, units]

/-- Numbers of up to 53 bits times a power of two are represented exactly. -/
theorem exact_of_bits {significand : Nat} (exponent : Nat) (few : significand ≤ 2 ^ 53)
    (finite : significand * 2 ^ exponent * unitsPerOne < unitsOfRank infinityRank) :
    Exact (significand * 2 ^ exponent) := by
  obtain ⟨rank, units⟩ := exists_unitsOfRank_eq (exponent + 1074) few
  have exactly : unitsOfRank rank = significand * 2 ^ exponent * unitsPerOne := by
    rw [units, pow_add, unitsPerOne_eq, Nat.mul_assoc]
  exact exact_of_units exactly finite

theorem rank_ofNat_mono (le : natural ≤ other) : (ofNat natural).rank ≤ (ofNat other).rank := by
  have rounded := nearestRank_mono one_pos (Nat.mul_le_mul_right unitsPerOne le)
  simp only [ofNat, ofRank]
  omega

theorem unitsPerOne_le_ofNat (positive : 0 < natural) : unitsPerOne ≤ (ofNat natural).units := by
  have one : Exact 1 := by
    simpa using exact_of_bits 0 (by decide : 1 ≤ 2 ^ 53) (by decide +kernel)
  rw [Exact, Nat.one_mul] at one
  rw [← one]
  exact unitsOfRank_strictMono.monotone (rank_ofNat_mono positive)

theorem isFinite_iff : number.isFinite = true ↔ number.rank < infinityRank :=
  decide_eq_true_iff

theorem isFinite_ofRank_iff {negative : Bool} {rank : Nat} :
    (ofRank negative rank).isFinite = true ↔ rank < infinityRank := by
  rw [isFinite_iff, ofRank]
  dsimp only
  omega

theorem isFinite_ofNat (small : natural ≤ 2 ^ 64) : (ofNat natural).isFinite := by
  have bound : (ofNat (2 ^ 64)).isFinite := by decide +kernel
  rw [isFinite_iff] at bound ⊢
  exact (rank_ofNat_mono small).trans_lt bound

theorem isFinite_ofInt {integer : Int} (small : integer.natAbs ≤ 2 ^ 64) :
    (ofInt integer).isFinite := by
  have sameRank : (ofInt integer).rank = (ofNat integer.natAbs).rank := rfl
  rw [isFinite_iff, sameRank, ← isFinite_iff]
  exact isFinite_ofNat small

theorem isFinite_quotient (finite : first.isFinite) (large : unitsPerOne ≤ second.units) :
    (first.quotient second).isFinite := by
  rw [isFinite_iff] at finite
  refine isFinite_ofRank_iff.mpr (lt_of_le_of_lt ?_ finite)
  exact nearestRank_le_of_le (unitsPerOne_pos.trans_le large) (Nat.mul_le_mul_left _ large)

theorem isFinite_product_of_le {larger otherLarger : Binary64} (le : first.rank ≤ larger.rank)
    (otherLe : second.rank ≤ otherLarger.rank) (finite : (larger.product otherLarger).isFinite) :
    (first.product second).isFinite := by
  refine isFinite_ofRank_iff.mpr (lt_of_le_of_lt ?_ (isFinite_ofRank_iff.mp finite))
  exact nearestRank_mono unitsPerOne_pos
    (Nat.mul_le_mul (unitsOfRank_strictMono.monotone le) (unitsOfRank_strictMono.monotone otherLe))

theorem product_ofNat (exact : Exact natural) (otherExact : Exact other) :
    (ofNat natural).product (ofNat other) = ofNat (natural * other) := by
  rw [product, exact, otherExact]
  have rounded : nearestRank (natural * unitsPerOne * (other * unitsPerOne)) unitsPerOne =
      nearestRank (natural * other * unitsPerOne) 1 :=
    nearestRank_congr unitsPerOne_pos one_pos (by ring)
  rw [rounded]
  rfl

theorem quotient_ofNat (exact : Exact natural) (otherExact : Exact other) :
    (ofNat natural).quotient (ofNat other) =
      ofRank false (nearestRank (natural * unitsPerOne) other) := by
  rw [quotient, exact, otherExact]
  have rounded : nearestRank (natural * unitsPerOne * unitsPerOne) (other * unitsPerOne) =
      nearestRank (natural * unitsPerOne) other :=
    nearestRank_mul_right unitsPerOne_pos
  rw [rounded]
  rfl

end JsonSieve.Binary64
