import JsonSieve.Binary64

/-!
# Rounding to the nearest binary64 number

A quotient of natural numbers is rounded to the nearest magnitude, and of two equally near ones
to that of even rank.  A quotient beyond the largest finite magnitude by half a step or more
becomes infinite.  Conversion of integers, product and quotient are exact operations followed
by one such rounding.
-/

namespace JsonSieve.Binary64

/-- The natural number nearest to a quotient, an exact half going to the even neighbour. -/
def roundedQuotient (numerator denominator : Nat) : Nat :=
  let below := numerator / denominator
  let twice := 2 * (numerator % denominator)
  if twice < denominator then below
  else if denominator < twice then below + 1
  else below + below % 2

/-- The rank of the magnitude nearest to `numerator / denominator` units.  Magnitudes from
`2 ^ (52 + coarseness)` units on are the multiples of `2 ^ coarseness` units. -/
def nearestRank (numerator denominator : Nat) : Nat :=
  let coarseness := (numerator / denominator).log2 - 52
  coarseness <<< 52 + roundedQuotient numerator (denominator <<< coarseness)

/-- The number nearest to a natural number. -/
def ofNat (number : Nat) : Binary64 :=
  ofRank false (nearestRank (number * unitsPerOne) 1)

def ofInt (number : Int) : Binary64 :=
  ofRank (decide (number < 0)) (nearestRank (number.natAbs * unitsPerOne) 1)

/-- The number nearest to the product of two finite numbers. -/
def product (first second : Binary64) : Binary64 :=
  ofRank (first.negative != second.negative)
    (nearestRank (first.units * second.units) unitsPerOne)

/-- The number nearest to the quotient of two finite numbers, the second one not zero. -/
def quotient (first second : Binary64) : Binary64 :=
  ofRank (first.negative != second.negative)
    (nearestRank (first.units * unitsPerOne) second.units)

end JsonSieve.Binary64
