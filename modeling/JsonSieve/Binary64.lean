/-!
# Binary64 numbers

A 64-bit floating point number is a sign together with the rank of its magnitude: the place of
the magnitude when all of them are listed in increasing order, zero first.  The rank is what
the lower 63 bits of the interchange format spell.  The largest finite magnitude is followed
by infinity, and infinity by the codes that are not numbers.

Every finite magnitude is a whole number of units of `2 ^ (-1074)`, the least positive
magnitude, so that all arithmetic on magnitudes can be done among the natural numbers.
-/

namespace JsonSieve

/-- A floating point number of 64 bits. -/
structure Binary64 where
  negative : Bool
  rank : Nat
  rank_lt : rank < 1 <<< 63
  deriving DecidableEq

namespace Binary64

/-- The rank of infinity: every finite magnitude ranks below it. -/
def infinityRank : Nat := 2047 <<< 52

/-- The number with these bits in the interchange format. -/
def ofBits (bits : UInt64) : Binary64 where
  negative := decide (1 <<< 63 ≤ bits.toNat)
  rank := bits.toNat % (1 <<< 63)
  rank_lt := Nat.mod_lt _ (by decide)

/-- The number with this sign and this magnitude. -/
def ofRank (negative : Bool) (rank : Nat) : Binary64 where
  negative := negative
  rank := min rank infinityRank
  rank_lt := Nat.lt_of_le_of_lt (Nat.min_le_right _ _) (by decide)

/-- Zero, without a minus. -/
def zero : Binary64 := ofRank false 0

/-- Whether the code stands for no number at all. -/
def isNaN (number : Binary64) : Bool :=
  decide (infinityRank < number.rank)

def isFinite (number : Binary64) : Bool :=
  decide (number.rank < infinityRank)

/-- The magnitude of this rank in units of `2 ^ (-1074)`.  The step between neighbours doubles with
every `2 ^ 52` magnitudes, after the first of them. -/
def unitsOfRank (rank : Nat) : Nat :=
  if rank < 1 <<< 52 then rank
  else (1 <<< 52 + rank % (1 <<< 52)) <<< (rank / (1 <<< 52) - 1)

/-- The magnitude of a finite number in units of `2 ^ (-1074)`. -/
def units (number : Binary64) : Nat :=
  unitsOfRank number.rank

/-- How many units make one. -/
def unitsPerOne : Nat := 1 <<< 1074

/-- The place of the number on the line of all numbers: its rank, counted downwards for a
negative number.  Both zeros have the place zero. -/
def place (number : Binary64) : Int :=
  if number.negative then -(number.rank : Int) else number.rank

/-- The numerical order, undefined as soon as one side is not a number. -/
def compare? (first second : Binary64) : Option Ordering :=
  if first.isNaN || second.isNaN then none
  else some (compare first.place second.place)

/-- Numerical equality: the two zeros are equal, and what is no number equals nothing. -/
def equals (first second : Binary64) : Bool :=
  first.compare? second == some .eq

def negate (number : Binary64) : Binary64 :=
  { number with negative := !number.negative }

end Binary64

end JsonSieve
