import JsonSieve.Binary64.Rounding
import JsonSieve.Digits

/-!
# Decimal forms of binary64 numbers

A positive finite number is written with the fewest decimal digits that are read back as the same
number; among those, with the digits nearest to it, an exact tie going to the even last
digit.  For each number of digits it is enough to look at the two decimals of that many digits
which enclose the number.
-/

namespace JsonSieve

/-- A positive decimal: its digits, from the first one that counts, and the power of ten for
which the first digit stands. -/
structure Decimal where
  digits : List Char
  exponent : Int
  deriving DecidableEq

namespace Decimal

/-- A magnitude of so many units as a quotient of natural numbers, measured in steps of
`10 ^ step`. -/
def stepsOfUnits (units : Nat) (step : Int) : Nat × Nat :=
  if 0 ≤ step then (units, Binary64.unitsPerOne * Nat.pow 10 step.toNat)
  else (units * Nat.pow 10 (-step).toNat, Binary64.unitsPerOne)

/-- The rank of the magnitude nearest to `count` steps of `10 ^ step`. -/
def rankOfSteps (count : Nat) (step : Int) : Nat :=
  if 0 ≤ step then
    Binary64.nearestRank (count * Nat.pow 10 step.toNat * Binary64.unitsPerOne) 1
  else
    Binary64.nearestRank (count * Binary64.unitsPerOne) (Nat.pow 10 (-step).toNat)

/-- The multiple of `10 ^ step` that is read back as the magnitude of this rank: the nearer of
the two multiples around it, or else the other one. -/
def multipleReadBack? (rank : Nat) (step : Int) : Option Nat :=
  let (numerator, denominator) := stepsOfUnits (Binary64.unitsOfRank rank) step
  let below := numerator / denominator
  let nearer := Binary64.roundedQuotient numerator denominator
  let other := if nearer = below then below + 1 else below
  if rankOfSteps nearer step = rank then some nearer
  else if rankOfSteps other step = rank then some other
  else none

/-- The power of ten of the first digit of a positive magnitude.  No positive magnitude is
below `10 ^ (-324)`. -/
def leadingExponent (units : Nat) : Int :=
  let (numerator, denominator) := stepsOfUnits units (-324)
  ((Digits.ofNat (numerator / denominator)).length : Int) - 325

/-- The decimal with this whole number of steps of `10 ^ step`, without closing zeros. -/
def ofSteps (count : Nat) (step : Int) : Decimal where
  digits := ((Digits.ofNat count).reverse.dropWhile (· = '0')).reverse
  exponent := step + (Digits.ofNat count).length - 1

/-- The most digits that are ever needed to tell a number from its neighbours. -/
def mostDigits : Nat := 17

/-- The decimal of the most digits that is nearest to the magnitude of this rank. -/
def nearest (rank : Nat) : Decimal :=
  let finest := leadingExponent (Binary64.unitsOfRank rank) - ((mostDigits - 1 : Nat) : Int)
  let (numerator, denominator) := stepsOfUnits (Binary64.unitsOfRank rank) finest
  ofSteps (Binary64.roundedQuotient numerator denominator) finest

/-- The shortest decimal that is read back as the positive finite magnitude of this rank. -/
def shortest (rank : Nat) : Decimal :=
  let leading := leadingExponent (Binary64.unitsOfRank rank)
  let steps := (List.range mostDigits).map (fun further : Nat => leading - further)
  (steps.findSome? (fun step => (multipleReadBack? rank step).map (ofSteps · step))).getD
    (nearest rank)

/-- How decimals are written out: positionally, with a digit on each side of the point, if the power
of ten of the first digit is in this range, and else with an exponent. -/
structure Style where
  leastPositional : Int
  greatestPositional : Int

/-- A decimal with its point in place. -/
def positional (decimal : Decimal) : List Char :=
  if decimal.exponent < 0 then
    '0' :: '.' :: List.replicate (-decimal.exponent - 1).toNat '0' ++ decimal.digits
  else
    let places := decimal.exponent.toNat + 1
    let whole := decimal.digits.take places
    let fraction := decimal.digits.drop places
    whole ++ List.replicate (places - whole.length) '0' ++
      '.' :: (if fraction.isEmpty then ['0'] else fraction)

/-- A decimal with one digit before the point and a signed exponent. -/
def scientific (decimal : Decimal) : List Char :=
  let fraction := decimal.digits.drop 1
  decimal.digits.take 1 ++ (if fraction.isEmpty then [] else '.' :: fraction) ++
    'e' :: (if decimal.exponent < 0 then '-' else '+') :: Digits.ofNat decimal.exponent.natAbs

def written (style : Style) (decimal : Decimal) : List Char :=
  if style.leastPositional ≤ decimal.exponent ∧ decimal.exponent ≤ style.greatestPositional then
    positional decimal
  else
    scientific decimal

end Decimal

end JsonSieve
